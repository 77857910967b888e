import RichDoc.Json.Reader

/-! The grammar of JSON text. A rule relates a text that starts with what the rule describes to the
text that is left after it. There is no bound on the nesting of brackets or on the size of numbers,
and a unit of UTF-16 may stand alone in a string. -/

namespace RichDoc.Json.Grammar

abbrev Rule := List Char → List Char → Prop

/-- Any number of characters with a property. -/
inductive Run (p : Char → Bool) : Rule
  | nil (t : List Char) : Run p t t
  | cons {c : Char} {t r : List Char} : p c → Run p t r → Run p (c :: t) r

/-- The blanks that may stand around a value, a key and a bracket. -/
abbrev Spaces : Rule := Run isSpace

/-! ### Numbers -/

inductive Digits : Rule
  | mk {c : Char} {t r : List Char} : c.isDigit → Run Char.isDigit t r → Digits (c :: t) r

/-- The whole part of a number, which starts with a zero only when it is zero. -/
inductive Whole : Rule
  | zero (r : List Char) : Whole ('0' :: r) r
  | digits {c : Char} {t r : List Char} : c ≠ '0' → Digits (c :: t) r → Whole (c :: t) r

inductive Fraction : Rule
  | none (r : List Char) : Fraction r r
  | point {t r : List Char} : Digits t r → Fraction ('.' :: t) r

inductive Sign : Rule
  | none (r : List Char) : Sign r r
  | sign {c : Char} (r : List Char) : c ∈ ['+', '-'] → Sign (c :: r) r

inductive Exponent : Rule
  | none (r : List Char) : Exponent r r
  | letter {c : Char} {t u r : List Char} : c ∈ ['e', 'E'] → Sign t u → Digits u r →
      Exponent (c :: t) r

inductive Magnitude : Rule
  | mk {t u w r : List Char} : Whole t u → Fraction u w → Exponent w r → Magnitude t r

/-! ### Strings -/

def isHex (c : Char) : Bool := (Text.hexValue? c).isSome

inductive Unit : Rule
  | mk {a b c d : Char} (r : List Char) : isHex a → isHex b → isHex c → isHex d →
      Unit (a :: b :: c :: d :: r) r

/-- A character of a string, or what stands for one. -/
inductive Symbol : Rule
  | plain {c : Char} (r : List Char) : ' ' ≤ c → c ≠ '"' → c ≠ '\\' → Symbol (c :: r) r
  | escape {c : Char} (r : List Char) : c ∈ ['"', '\\', '/', 'b', 'f', 'n', 'r', 't'] →
      Symbol ('\\' :: c :: r) r
  | unit {t r : List Char} : Unit t r → Symbol ('\\' :: 'u' :: t) r

/-- The rest of a string after its first quote. -/
inductive Symbols : Rule
  | close (r : List Char) : Symbols ('"' :: r) r
  | cons {t u r : List Char} : Symbol t u → Symbols u r → Symbols t r

/-- The key of a member, with the colon after it. -/
inductive Key : Rule
  | mk {t u w r : List Char} : Spaces t ('"' :: u) → Symbols u w → Spaces w (':' :: r) → Key t r

/-! ### Values -/

def words : List (List Char) := ["null", "true", "false"].map String.toList

mutual

inductive Value : Rule
  | word {w : List Char} (r : List Char) : w ∈ words → Value (w ++ r) r
  | string {t r : List Char} : Symbols t r → Value ('"' :: t) r
  | number {t r : List Char} : Magnitude t r → Value t r
  | negative {t r : List Char} : Magnitude t r → Value ('-' :: t) r
  | emptyList {t r : List Char} : Spaces t (']' :: r) → Value ('[' :: t) r
  | list {t r : List Char} : Items t r → Value ('[' :: t) r
  | emptyObject {t r : List Char} : Spaces t ('\x7d' :: r) → Value ('\x7b' :: t) r
  | object {t r : List Char} : Members t r → Value ('\x7b' :: t) r

/-- A value between blanks. -/
inductive Element : Rule
  | mk {t u w r : List Char} : Spaces t u → Value u w → Spaces w r → Element t r

/-- The items of a list, with the bracket that closes it. -/
inductive Items : Rule
  | last {t r : List Char} : Element t (']' :: r) → Items t r
  | cons {t u r : List Char} : Element t (',' :: u) → Items u r → Items t r

/-- The members of an object, with the bracket that closes it. -/
inductive Members : Rule
  | last {t u r : List Char} : Key t u → Element u ('\x7d' :: r) → Members t r
  | cons {t u w r : List Char} : Key t u → Element u (',' :: w) → Members w r → Members t r

end

/-- A text that is one value between blanks, and nothing else. -/
def IsText (t : List Char) : Prop := Element t []

section

variable {t u r : List Char}

theorem Run.trans {p : Char → Bool} (h : Run p t u) (h' : Run p u r) : Run p t r := by
  induction h with
  | nil t => exact h'
  | cons hc _ ih => exact .cons hc (ih h')

theorem run_dropWhile (p : Char → Bool) (t : List Char) : Run p t (t.dropWhile p) := by
  induction t with
  | nil => exact .nil []
  | cons c t ih =>
    by_cases hc : p c
    · rw [List.dropWhile_cons_of_pos hc]
      exact .cons hc ih
    · rw [List.dropWhile_cons_of_neg hc]
      exact .nil _

theorem spaces_skipSpaces (t : List Char) : Spaces t (skipSpaces t) := run_dropWhile isSpace t

theorem Key.spaces (h : Spaces t u) (hkey : Key u r) : Key t r := by
  cases hkey with
  | mk hopen hsymbols hcolon => exact .mk (h.trans hopen) hsymbols hcolon

theorem Members.spaces (h : Spaces t u) (hmembers : Members u r) : Members t r := by
  cases hmembers with
  | last hkey hvalue => exact .last (hkey.spaces h) hvalue
  | cons hkey hvalue hrest => exact .cons (hkey.spaces h) hvalue hrest

end

/-! ### What a rule leaves -/

/-- A rule that takes something leaves a shorter end of the text. -/
def Shorter : Rule := fun t r => r <:+ t ∧ r.length < t.length

section

variable {t u r : List Char}

theorem Shorter.cons (c : Char) (h : r <:+ t) : Shorter (c :: t) r := by
  refine ⟨h.trans (List.suffix_cons c t), ?_⟩
  have hle := h.length_le
  rw [List.length_cons]
  omega

theorem Shorter.left (h : Shorter t u) (h' : r <:+ u) : Shorter t r := by
  have hle := h'.length_le
  exact ⟨h'.trans h.1, Nat.lt_of_le_of_lt hle h.2⟩

theorem Shorter.right (h : u <:+ t) (h' : Shorter u r) : Shorter t r := by
  have hle := h.length_le
  exact ⟨h'.1.trans h, Nat.lt_of_lt_of_le h'.2 hle⟩

theorem Run.suffix {p : Char → Bool} (h : Run p t r) : r <:+ t := by
  induction h with
  | nil t => exact List.suffix_refl t
  | cons _ _ ih => exact ih.trans (List.suffix_cons _ _)

theorem Digits.shorter (h : Digits t r) : Shorter t r := by
  cases h with
  | mk _ hrun => exact .cons _ hrun.suffix

theorem Magnitude.shorter (h : Magnitude t r) : Shorter t r := by
  obtain ⟨hwhole, hfraction, hexponent⟩ := h
  rename_i u w
  have h1 : Shorter t u := by
    cases hwhole with
    | zero => exact .cons _ (List.suffix_refl _)
    | digits _ hdigits => exact hdigits.shorter
  have h2 : w <:+ u := by
    cases hfraction with
    | none => exact List.suffix_refl _
    | point hdigits => exact hdigits.shorter.1.trans (List.suffix_cons _ _)
  have h3 : r <:+ w := by
    cases hexponent with
    | none => exact List.suffix_refl _
    | letter _ hsign hdigits =>
      cases hsign with
      | none => exact hdigits.shorter.1.trans (List.suffix_cons _ _)
      | sign => exact (hdigits.shorter.1.trans (List.suffix_cons _ _)).trans (List.suffix_cons _ _)
  exact h1.left (h3.trans h2)

theorem Symbol.shorter (h : Symbol t r) : Shorter t r := by
  cases h with
  | plain => exact .cons _ (List.suffix_refl _)
  | escape => exact .cons _ (List.suffix_cons _ _)
  | unit hunit =>
    cases hunit with
    | mk => exact .cons _ ⟨[_, _, _, _, _], rfl⟩

theorem Symbols.shorter (h : Symbols t r) : Shorter t r := by
  induction h with
  | close r => exact .cons _ (List.suffix_refl r)
  | cons hsymbol _ ih => exact hsymbol.shorter.left ih.1

theorem Key.shorter (h : Key t r) : Shorter t r := by
  cases h with
  | mk hopen hsymbols hcolon =>
    exact .right hopen.suffix (.cons _
      ((List.suffix_cons _ _).trans (hcolon.suffix.trans hsymbols.shorter.1)))

end

mutual

theorem Value.shorter {t r : List Char} : Value t r → Shorter t r
  | .word (w := w) r h => by
    have hpos : ∀ w ∈ words, w ≠ [] := by decide
    cases w with
    | nil => exact absurd rfl (hpos _ h)
    | cons c w => exact .cons c (List.suffix_append w r)
  | .string h => .cons _ h.shorter.1
  | .number h => h.shorter
  | .negative h => .cons _ h.shorter.1
  | .emptyList h => .cons _ ((List.suffix_cons _ _).trans h.suffix)
  | .list h => .cons _ h.shorter.1
  | .emptyObject h => .cons _ ((List.suffix_cons _ _).trans h.suffix)
  | .object h => .cons _ h.shorter.1

theorem Element.shorter {t r : List Char} : Element t r → Shorter t r
  | .mk hbefore hvalue hafter => .right hbefore.suffix (hvalue.shorter.left hafter.suffix)

theorem Items.shorter {t r : List Char} : Items t r → Shorter t r
  | .last h => h.shorter.left (List.suffix_cons _ _)
  | .cons h hrest => h.shorter.left ((hrest.shorter.1).trans (List.suffix_cons _ _))

theorem Members.shorter {t r : List Char} : Members t r → Shorter t r
  | .last hkey h => hkey.shorter.left ((List.suffix_cons _ _).trans h.shorter.1)
  | .cons hkey h hrest =>
    hkey.shorter.left (hrest.shorter.1.trans ((List.suffix_cons _ _).trans h.shorter.1))

end

/-! ### Brackets that are not closed -/

theorem Items.closed {t r : List Char} : Items t r → ']' ∈ t
  | .last h => h.shorter.1.mem (List.mem_cons_self ..)
  | .cons h hrest => h.shorter.1.mem (List.mem_cons_of_mem _ hrest.closed)

theorem Value.exists_ne {t r : List Char} (h : Value t r) : ∃ c ∈ t, c ≠ '[' := by
  cases h with
  | word r hw =>
    have hwords : ∀ w ∈ words, w.any (· != '[') = true := by decide
    obtain ⟨c, hc, hne⟩ := List.any_eq_true.mp (hwords _ hw)
    exact ⟨c, List.mem_append_left r hc, bne_iff_ne.mp hne⟩
  | string => exact ⟨'"', List.mem_cons_self .., by decide⟩
  | number hmagnitude =>
    obtain ⟨hwhole, -, -⟩ := hmagnitude
    cases hwhole with
    | zero => exact ⟨'0', List.mem_cons_self .., by decide⟩
    | digits _ hdigits =>
      cases hdigits with
      | mk hc =>
        refine ⟨_, List.mem_cons_self .., ?_⟩
        rintro rfl
        cases hc
  | negative => exact ⟨'-', List.mem_cons_self .., by decide⟩
  | emptyList hclose =>
    have hmem := hclose.suffix.mem (List.mem_cons_self ..)
    exact ⟨']', List.mem_cons_of_mem _ hmem, by decide⟩
  | list hitems => exact ⟨']', List.mem_cons_of_mem _ hitems.closed, by decide⟩
  | emptyObject => exact ⟨'\x7b', List.mem_cons_self .., by decide⟩
  | object => exact ⟨'\x7b', List.mem_cons_self .., by decide⟩

theorem not_isText_replicate (n : Nat) : ¬IsText (List.replicate n '[') := by
  rintro ⟨hbefore, hvalue, -⟩
  obtain ⟨c, hc, hne⟩ := hvalue.exists_ne
  exact hne (List.eq_of_mem_replicate (hbefore.suffix.mem hc))

end RichDoc.Json.Grammar
