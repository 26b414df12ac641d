import Mathlib.Data.List.Basic
import Mathlib.Logic.Function.Basic
import Peg.Label
import Peg.Match.Print

/-!
# Forms that can be read back

A text is put together from the forms of values, one after the other, and nothing tells a reader
where a form ends but the text itself. `Text.ReadsBack form follows` says that this is enough: from
a form with more text after it, text that `follows` allows there, both the value and the text after
it are determined.

* A number is over where its digits are over (`Text.readsBack_toDigits`), in base ten and in base
  sixteen.
* An escaped character is over whatever follows, and no character is escaped to something that
  starts with a double quote. So a quoted text ends at the first double quote that is not part of an
  escaped character (`Text.readsBack_quote`), and can hold any characters whatsoever.
* `Legible` collects what the lines of a printed match ask of the identifiers in them. Labels are
  legible (`Label.legible`), the quoted ones with all the blanks, colons and quotes inside them.
-/

namespace Peg

namespace Text

/-- The value and what stands after its form are determined by the text, if what stands there is
allowed to follow. -/
def ReadsBack {β : Type} (form : β → List Char) (follows : List Char → Prop) : Prop :=
  ∀ ⦃b b' : β⦄ ⦃r r' : List Char⦄, follows r → follows r' →
    form b ++ r = form b' ++ r' → b = b' ∧ r = r'

namespace ReadsBack

variable {β : Type} {form : β → List Char} {follows : List Char → Prop}

/-- A form of characters of one kind is over before the first character of another kind. -/
theorem of_forall_mem {p : Char → Prop} (hinj : Function.Injective form)
    (hp : ∀ b, ∀ c ∈ form b, p c) : ReadsBack form fun r => ∀ c ∈ r.head?, ¬ p c := by
  intro b b' r r' hr hr' h
  -- Were one form longer than the other, it would go on with the head of what follows the other.
  rcases List.append_eq_append_iff.1 h with ⟨more, hform, hrest⟩ | ⟨more, hform, hrest⟩
  · cases more with
    | nil => exact ⟨hinj (by simpa using hform.symm), by simpa using hrest⟩
    | cons c more => exact absurd (hp b' c (by simp [hform])) (hr c (by simp [hrest]))
  · cases more with
    | nil => exact ⟨hinj (by simpa using hform), by simpa using hrest.symm⟩
    | cons c more => exact absurd (hp b c (by simp [hform])) (hr' c (by simp [hrest]))

/-- A row of forms, each of which reads back whatever follows, is over where no form starts. -/
theorem flatMap (hform : ReadsBack form fun _ => True)
    (hstop : ∀ b r r', follows r → form b ++ r' ≠ r) :
    ReadsBack (List.flatMap form) follows := by
  intro bs
  induction bs with
  | nil =>
    rintro (_ | ⟨b', bs'⟩) r r' hr hr' h
    · exact ⟨rfl, h⟩
    · rw [List.flatMap_nil, List.nil_append, List.flatMap_cons, List.append_assoc] at h
      exact absurd h.symm (hstop b' r _ hr)
  | cons b bs ih =>
    rintro (_ | ⟨b', bs'⟩) r r' hr hr' h
    · rw [List.flatMap_nil, List.nil_append, List.flatMap_cons, List.append_assoc] at h
      exact absurd h (hstop b r' _ hr')
    · rw [List.flatMap_cons, List.flatMap_cons, List.append_assoc, List.append_assoc] at h
      obtain ⟨rfl, hrest⟩ := hform trivial trivial h
      obtain ⟨rfl, rfl⟩ := ih hr hr' hrest
      exact ⟨rfl, rfl⟩

end ReadsBack

/-! ## Digits -/

/-- A hexadecimal digit is told by its character. -/
theorem digitChar_inj {m n : Nat} (hm : m < 16) (hn : n < 16)
    (h : Nat.digitChar m = Nat.digitChar n) : m = n := by
  have hall : ∀ i < 16, ∀ j < 16, Nat.digitChar i = Nat.digitChar j → i = j := by decide
  exact hall m hm n hn h

/-- A row of digits is not empty, so it is more than nothing before its last digit. -/
theorem singleton_ne_toDigits_append (b n : Nat) (c d : Char) :
    [c] ≠ Nat.toDigits b n ++ [d] := by
  intro h
  have hlength := congrArg List.length h
  simp at hlength

/-- A number is told by its digits. -/
theorem toDigits_injective {b : Nat} (hb : 1 < b) (hb16 : b ≤ 16) :
    Function.Injective (Nat.toDigits b) := by
  intro m
  induction m using Nat.strongRecOn with
  | ind m ih =>
    intro n h
    rw [Nat.toDigits_eq_if (n := m) hb, Nat.toDigits_eq_if (n := n) hb] at h
    split_ifs at h with hm hn hn
    · exact digitChar_inj (by omega) (by omega) (List.singleton_injective h)
    · exact absurd h (singleton_ne_toDigits_append _ _ _ _)
    · exact absurd h.symm (singleton_ne_toDigits_append _ _ _ _)
    · obtain ⟨hquot, hrem⟩ := List.append_inj' h rfl
      have hm' := Nat.mod_lt m (show 0 < b by omega)
      have hn' := Nat.mod_lt n (show 0 < b by omega)
      have hdiv : m / b = n / b := ih _ (Nat.div_lt_self (by omega) hb) hquot
      have hmod : m % b = n % b :=
        digitChar_inj (by omega) (by omega) (List.singleton_injective hrem)
      rw [← Nat.div_add_mod m b, hdiv, hmod, Nat.div_add_mod]

/-- A number is written with digits only. -/
theorem exists_digitChar_of_mem_toDigits {b : Nat} (hb : 1 < b) {c : Char} :
    ∀ n, c ∈ Nat.toDigits b n → ∃ k, c = Nat.digitChar k := by
  intro n
  induction n using Nat.strongRecOn with
  | ind n ih =>
    intro h
    rw [Nat.toDigits_eq_if hb] at h
    split_ifs at h with hn
    · exact ⟨n, List.mem_singleton.1 h⟩
    · rcases List.mem_append.1 h with h | h
      · exact ih _ (Nat.div_lt_self (by omega) hb) h
      · exact ⟨n % b, List.mem_singleton.1 h⟩

/-- A number does not begin with a character that is no digit. -/
theorem toDigits_append_ne {c : Char} (hc : ∀ k, Nat.digitChar k ≠ c) (n : Nat) (r r' : List Char) :
    Nat.toDigits 10 n ++ r ≠ c :: r' := by
  intro h
  cases hdigits : Nat.toDigits 10 n with
  | nil => exact absurd hdigits Nat.toDigits_ne_nil
  | cons d rest =>
    rw [hdigits] at h
    obtain ⟨k, rfl⟩ := exists_digitChar_of_mem_toDigits (b := 10) (by decide) n
      (hdigits ▸ List.mem_cons_self)
    exact hc k (List.cons.inj h).1

/-- No digit of any base stands at the head of a text. -/
def NoDigit (r : List Char) : Prop := ∀ c ∈ r.head?, ¬ ∃ k, c = Nat.digitChar k

/-- A text that starts with a character that is no digit starts with no digit. -/
theorem noDigit_of_head? {r : List Char} {c : Char} (h : r.head? = some c)
    (hc : ∀ k, Nat.digitChar k ≠ c) : NoDigit r := by
  rintro d hd ⟨k, rfl⟩
  rw [h] at hd
  exact hc k (Option.some.inj hd).symm

/-- A number is over where its digits are over. -/
theorem readsBack_toDigits {b : Nat} (hb : 1 < b) (hb16 : b ≤ 16) :
    ReadsBack (Nat.toDigits b) NoDigit :=
  ReadsBack.of_forall_mem (toDigits_injective hb hb16) fun n _ hc =>
    exists_digitChar_of_mem_toDigits hb n hc

/-! ## Quoted texts -/

/-- The characters that are escaped by a letter, and their letters. -/
def letters : List (Char × Char) :=
  [('\x00', '0'), ('\t', 't'), ('\r', 'r'), ('\n', 'n'), ('"', '"'), ('\\', '\\')]

/-- The ways of escaping a character. -/
inductive Escaped (c : Char) : List Char → Prop
  | letter (l : Char) (h : (c, l) ∈ letters) : Escaped c ['\\', l]
  | codePoint : Escaped c (byCodePoint c)
  | plain (hslash : c ≠ '\\') (hquote : c ≠ '"') : Escaped c [c]

/-- Every character is escaped in one of these ways. -/
theorem escaped (c : Char) : Escaped c (escape c) := by
  unfold escape
  split_ifs with h0 ht hr hn hquote hslash hhidden
  · exact .letter '0' (by simp [letters, h0])
  · exact .letter 't' (by simp [letters, ht])
  · exact .letter 'r' (by simp [letters, hr])
  · exact .letter 'n' (by simp [letters, hn])
  · exact .letter '"' (by simp [letters, hquote])
  · exact .letter '\\' (by simp [letters, hslash])
  · exact .codePoint
  · exact .plain hslash hquote

/-- A letter stands for one character only. -/
theorem letters_inj {c d l : Char} (hc : (c, l) ∈ letters) (hd : (d, l) ∈ letters) : c = d := by
  have hall : ∀ p ∈ letters, ∀ q ∈ letters, p.2 = q.2 → p.1 = q.1 := by decide
  exact hall _ hc _ hd rfl

/-- No character is escaped by the letter that introduces a code point. -/
theorem u_notMem_letters (c : Char) : (c, 'u') ∉ letters := by
  have hall : ∀ p ∈ letters, p.2 ≠ 'u' := by decide
  exact fun h => hall _ h rfl

/-- An escape by code point, written out before a text. -/
theorem byCodePoint_append (c : Char) (r : List Char) :
    byCodePoint c ++ r = '\\' :: 'u' :: '\x7b' :: (hex c.toNat ++ '\x7d' :: r) := by
  simp [byCodePoint]

/-- An escaped character is over whatever follows. -/
theorem readsBack_escape : ReadsBack escape fun _ => True := by
  intro c d r r' _ _ h
  have hc := escaped c
  have hd := escaped d
  generalize escape c = e at hc h
  generalize escape d = f at hd h
  cases hc with
  | letter l hl =>
    cases hd with
    | letter l' hl' =>
      simp only [List.cons_append, List.nil_append, List.cons.injEq, true_and] at h
      obtain ⟨rfl, hrest⟩ := h
      exact ⟨letters_inj hl hl', hrest⟩
    | codePoint =>
      rw [byCodePoint_append] at h
      simp only [List.cons_append, List.cons.injEq, true_and] at h
      exact absurd (h.1 ▸ hl) (u_notMem_letters c)
    | plain hslash _ => exact absurd (List.cons.inj h).1.symm hslash
  | codePoint =>
    rw [byCodePoint_append] at h
    cases hd with
    | letter l' hl' =>
      simp only [List.cons_append, List.cons.injEq, true_and] at h
      exact absurd (h.1 ▸ hl') (u_notMem_letters d)
    | codePoint =>
      rw [byCodePoint_append] at h
      simp only [List.cons.injEq, true_and] at h
      have hbrace (s : List Char) : NoDigit ('\x7d' :: s) :=
        noDigit_of_head? rfl fun k => Nat.digitChar_ne _ (by decide)
      obtain ⟨hpoint, hrest⟩ :=
        readsBack_toDigits (by decide) (by decide) (hbrace r) (hbrace r') h
      exact ⟨Char.toNat_inj.1 hpoint, (List.cons.inj hrest).2⟩
    | plain hslash _ => exact absurd (List.cons.inj h).1.symm hslash
  | plain hslash _ =>
    cases hd with
    | letter l' _ => exact absurd (List.cons.inj h).1 hslash
    | codePoint => exact absurd (List.cons.inj h).1 hslash
    | plain _ _ => exact List.cons.inj h

/-- No escaped character starts with a double quote. -/
theorem escape_append_ne (c : Char) (r r' : List Char) : escape c ++ r ≠ '"' :: r' := by
  have hc := escaped c
  generalize escape c = e at hc
  cases hc with
  | letter l _ => simp
  | codePoint => simp [byCodePoint]
  | plain _ hquote => simp [hquote]

/-- A quoted text, written out before another text. -/
theorem quote_append (text : String) (r : List Char) :
    (quote text).toList ++ r = '"' :: (text.toList.flatMap escape ++ '"' :: r) := by
  simp [quote]

/-- A quoted text is over whatever follows. -/
theorem readsBack_quote : ReadsBack (fun text => (quote text).toList) fun _ => True := by
  intro s t r r' _ _ h
  simp only [quote_append] at h
  have hescapes : ReadsBack (List.flatMap escape) fun q => q.head? = some '"' := by
    refine readsBack_escape.flatMap fun c q q' hq h => ?_
    obtain ⟨q, rfl⟩ := List.head?_eq_some_iff.1 hq
    exact escape_append_ne c q' q h
  obtain ⟨hchars, hrest⟩ := hescapes rfl rfl (List.cons.inj h).2
  exact ⟨String.toList_inj.1 hchars, (List.cons.inj hrest).2⟩

end Text

/-! ## Identifiers in lines -/

/-- The text after an identifier in a line: a blank, or the end of the line. -/
def EndsId (r : List Char) : Prop := r.head? = some ' ' ∨ r.head? = some '\n'

/-- Identifiers that can be told from the spaces before them and from the line after them. Their
forms can hold blanks and colons, and a form can be the beginning of another one, as long as it is
not followed by a blank or a line break there. -/
structure Legible {Id : Type} (display : Id → String) : Prop where
  /-- No form starts with a space. -/
  no_space : ∀ id, (display id).toList.head? ≠ some ' '
  /-- An identifier is read back from its form and what stands after it in a line. -/
  reads_back : Text.ReadsBack (fun id => (display id).toList) EndsId

namespace Label

/-- A number that is not negative is written with its digits. -/
theorem decimal_ofNat (n : Nat) : (decimal (.ofNat n)).toList = Nat.toDigits 10 n := by
  simp [decimal]

/-- A negative number is written with a sign and digits. -/
theorem decimal_negSucc (n : Nat) :
    (decimal (.negSucc n)).toList = '-' :: Nat.toDigits 10 (n + 1) := by
  simp [decimal]

/-- The form of a number does not start with anything but a sign or a digit. -/
theorem decimal_append_ne {c : Char} (hc : ∀ k, Nat.digitChar k ≠ c) (hsign : c ≠ '-') (n : Int)
    (r r' : List Char) : (decimal n).toList ++ r ≠ c :: r' := by
  cases n with
  | ofNat n =>
    rw [decimal_ofNat]
    exact Text.toDigits_append_ne hc n r r'
  | negSucc n =>
    rw [decimal_negSucc]
    exact fun h => hsign (List.cons.inj h).1.symm

/-- A number with its sign is over where its digits are over. -/
theorem readsBack_decimal : Text.ReadsBack (fun n => (decimal n).toList) Text.NoDigit := by
  have hdigits := Text.readsBack_toDigits (b := 10) (by decide) (by decide)
  have hsign (n : Nat) (r r' : List Char) : Nat.toDigits 10 n ++ r ≠ '-' :: r' :=
    Text.toDigits_append_ne (fun k => Nat.digitChar_ne _ (by decide)) n r r'
  intro m n r r' hr hr' h
  cases m with
  | ofNat m =>
    cases n with
    | ofNat n =>
      simp only [decimal_ofNat] at h
      obtain ⟨rfl, hrest⟩ := hdigits hr hr' h
      exact ⟨rfl, hrest⟩
    | negSucc n =>
      simp only [decimal_ofNat, decimal_negSucc] at h
      exact absurd h (hsign m r _)
  | negSucc m =>
    cases n with
    | ofNat n =>
      simp only [decimal_ofNat, decimal_negSucc] at h
      exact absurd h.symm (hsign n r' _)
    | negSucc n =>
      simp only [decimal_negSucc, List.cons_append, List.cons.injEq, true_and] at h
      obtain ⟨hmn, hrest⟩ := hdigits hr hr' h
      exact ⟨congrArg Int.negSucc (Nat.succ.inj hmn), hrest⟩

/-- What ends an identifier in a line starts with no digit. -/
theorem noDigit_of_endsId {r : List Char} (h : EndsId r) : Text.NoDigit r := by
  rcases h with h | h <;> exact Text.noDigit_of_head? h fun k => Nat.digitChar_ne _ (by decide)

/-- Labels can be read back from the lines of a printed match. -/
theorem legible : Legible display where
  no_space id h := by
    obtain ⟨r, hr⟩ := List.head?_eq_some_iff.1 h
    rw [← List.append_nil (display id).toList] at hr
    cases id with
    | text value =>
      rw [display, Text.quote_append] at hr
      exact absurd (List.cons.inj hr).1 (by decide)
    | number value =>
      exact decimal_append_ne (fun k => Nat.digitChar_ne _ (by decide)) (by decide) value [] r hr
  reads_back := by
    have hquote (n : Int) (r r' : List Char) : (decimal n).toList ++ r ≠ '"' :: r' :=
      decimal_append_ne (fun k => Nat.digitChar_ne _ (by decide)) (by decide) n r r'
    intro a b r r' hr hr' h
    cases a with
    | text s =>
      cases b with
      | text t =>
        obtain ⟨rfl, hrest⟩ := Text.readsBack_quote trivial trivial h
        exact ⟨rfl, hrest⟩
      | number n =>
        simp only [display, Text.quote_append] at h
        exact absurd h.symm (hquote n r' _)
    | number m =>
      cases b with
      | text t =>
        simp only [display, Text.quote_append] at h
        exact absurd h (hquote m r _)
      | number n =>
        obtain ⟨rfl, hrest⟩ :=
          readsBack_decimal (noDigit_of_endsId hr) (noDigit_of_endsId hr') h
        exact ⟨rfl, hrest⟩

end Label

end Peg
