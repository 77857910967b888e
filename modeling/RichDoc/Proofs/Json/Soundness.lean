import RichDoc.Proofs.Json.Grammar

/-! Whatever the reader takes for a value is one in the grammar, in a text of any nesting, and it
leaves what the grammar leaves. -/

namespace RichDoc.Json

open Grammar

/-! ### Numbers -/

theorem dropWhile_takeDigits (s : Significand) (t : List Char) :
    (takeDigits s t).2.dropWhile Char.isDigit = t.dropWhile Char.isDigit := by
  fun_induction takeDigits s t with
  | case1 s => rfl
  | case2 s c rest _ h ih => rw [ih, List.dropWhile_cons_of_pos h.1]
  | case3 s c rest value h => rfl

theorem dropWhile_takeExponent (e : Nat) (t : List Char) :
    (takeExponent e t).2.dropWhile Char.isDigit = t.dropWhile Char.isDigit := by
  fun_induction takeExponent e t with
  | case1 e => rfl
  | case2 e c rest hc => rfl
  | case3 e c rest value hc h ih =>
    rw [ih, List.dropWhile_cons_of_pos (by simpa using hc)]
  | case4 e c rest value hc h => rw [List.dropWhile_cons_of_pos (by simpa using hc)]

theorem takeExponent_some {e shift : Nat} {t r : List Char}
    (h : takeExponent e t = (some shift, r)) : r = t.dropWhile Char.isDigit := by
  fun_induction takeExponent e t with
  | case1 e => cases h; rfl
  | case2 e c rest hc =>
    cases h
    rw [List.dropWhile_cons_of_neg (by simpa using hc)]
  | case3 e c rest value hc hfits ih =>
    rw [ih h, List.dropWhile_cons_of_pos (by simpa using hc)]
  | case4 e c rest value hc hfits => cases h

theorem digits_dropWhile {t : List Char} (h : t.head?.any Char.isDigit) :
    Digits t (t.dropWhile Char.isDigit) := by
  cases t with
  | nil => cases h
  | cons c t =>
    have hc : c.isDigit = true := h
    rw [List.dropWhile_cons_of_pos hc]
    exact .mk hc (run_dropWhile Char.isDigit t)

/-- A reading of a text that goes by a rule. When it fails, then not because of the nesting. -/
def Follows {α : Type} (rule : Rule) (t : List Char) : Read α → Prop
  | .ok (_, r) => rule t r
  | .error e => e.cause ≠ .nestedTooDeeply

theorem Follows.mono {α : Type} {rule rule' : Rule} {t u : List Char} {result : Read α}
    (h : Follows rule u result) (hrule : ∀ r, rule u r → rule' t r) : Follows rule' t result := by
  cases result with
  | ok result => exact hrule _ h
  | error e => exact h

theorem follows_error {α : Type} {rule : Rule} {t left : List Char} {cause : Cause} {ahead : Nat}
    (h : cause ≠ .nestedTooDeeply) : Follows (α := α) rule t (.error ⟨cause, left, ahead⟩) := h

theorem follows_failOr {α : Type} {rule : Rule} {t : List Char} {atEnd cause : Cause}
    {u : List Char} (hend : atEnd ≠ .nestedTooDeeply) (hcause : cause ≠ .nestedTooDeeply) :
    Follows (α := α) rule t (failOr atEnd cause u) := by
  cases u with
  | nil => exact hend
  | cons c u => exact hcause

/-! ### Numbers -/

theorem follows_readDecimal {rule : Rule} {t u : List Char} {negative : Bool} {significand : Nat}
    {e : Int} (h : rule t u) : Follows rule t (readDecimal negative significand e u) := by
  rw [readDecimal]
  split
  · exact h
  · exact follows_error (by decide)

theorem follows_readExponent {negative : Bool} {significand : Nat} {e : Int} {c : Char}
    {t : List Char} (hc : c ∈ ['e', 'E']) :
    Follows Exponent (c :: t) (readExponent negative significand e t) := by
  fun_cases readExponent negative significand e t with
  | case1 below u hsign hdigit shift rest htake =>
    have hread : Sign t u := by
      split at hsign <;> cases hsign
      · exact .sign _ (by decide)
      · exact .sign _ (by decide)
      · exact .none t
    apply follows_readDecimal
    rw [takeExponent_some htake]
    exact .letter hc hread (digits_dropWhile hdigit)
  | case2 => exact follows_error (by decide)
  | case3 below u hsign hdigit rest htake =>
    have hread : Sign t u := by
      split at hsign <;> cases hsign
      · exact .sign _ (by decide)
      · exact .sign _ (by decide)
      · exact .none t
    have hrest := dropWhile_takeExponent 0 u
    rw [htake] at hrest
    apply follows_readDecimal
    rw [hrest]
    exact .letter hc hread (digits_dropWhile hdigit)
  | case4 => exact follows_failOr (by decide) (by decide)

theorem follows_readScale {negative : Bool} {significand : Nat} {e : Int} (t : List Char) :
    Follows Exponent t (readScale negative significand e t) := by
  fun_cases readScale negative significand e t with
  | case1 rest => exact follows_readExponent (by decide)
  | case2 rest => exact follows_readExponent (by decide)
  | case3 => exact follows_readDecimal (.none t)

theorem follows_readFraction {negative : Bool} {whole : Nat} {e : Int} (t : List Char) :
    Follows (fun t r => ∃ u, Fraction t u ∧ Exponent u r) ('.' :: t)
      (readFraction negative whole e t) := by
  fun_cases readFraction negative whole e t with
  | case1 hdigit s rest htake =>
    have hrest := dropWhile_takeDigits ⟨whole, 0⟩ t
    rw [htake] at hrest
    rw [hrest]
    apply (follows_readScale _).mono
    intro r hexponent
    exact ⟨_, .point (digits_dropWhile hdigit), hexponent⟩
  | case2 => exact follows_failOr (by decide) (by decide)

theorem follows_afterWhole {negative : Bool} {whole dropped : Nat} {t u : List Char}
    (h : Whole t u) : Follows Magnitude t (readNumber.afterWhole negative whole dropped u) := by
  fun_cases readNumber.afterWhole negative whole dropped u with
  | case1 rest =>
    apply (follows_readFraction rest).mono
    rintro r ⟨w, hfraction, hexponent⟩
    exact .mk h hfraction hexponent
  | case2 rest => exact (follows_readExponent (by decide)).mono fun r hr => .mk h (.none _) hr
  | case3 rest => exact (follows_readExponent (by decide)).mono fun r hr => .mk h (.none _) hr
  | case4 => exact .mk h (.none u) (.none u)
  | case5 => exact follows_readDecimal (.mk h (.none u) (.none u))

theorem follows_readNumber (negative : Bool) (t : List Char) :
    Follows Magnitude t (readNumber negative t) := by
  fun_cases readNumber negative t with
  | case1 d rest hd => exact follows_error (by decide)
  | case2 d rest hd => exact follows_afterWhole (.zero _)
  | case3 c rest hzero hc =>
    have hwhole : Whole (c :: rest)
        ((takeDigits ⟨0, 0⟩ (c :: rest)).2.dropWhile Char.isDigit) := by
      rw [dropWhile_takeDigits]
      by_cases h0 : c = '0'
      · subst h0
        cases rest with
        | nil => exact .zero []
        | cons d rest => exact (hzero d rest rfl rfl).elim
      · exact .digits h0 (digits_dropWhile hc)
    exact follows_afterWhole hwhole
  | case4 => exact follows_error (by decide)
  | case5 => exact follows_error (by decide)

/-! ### Words and strings -/

theorem follows_readWord {α : Type} (result : α) (word t : List Char) :
    Follows (fun t r => t = word ++ r) t (readWord result word t) := by
  fun_induction readWord result word t with
  | case1 t => rfl
  | case2 c word rest ih =>
    apply ih.mono
    rintro r rfl
    rfl
  | case3 => exact follows_error (by decide)
  | case4 => exact follows_error (by decide)

theorem follows_readHex (t : List Char) : Follows Unit t (readHex t) := by
  fun_cases readHex t with
  | case1 _ _ _ _ h =>
    have isHex_of : ∀ {c : Char} {n : Nat}, Text.hexValue? c = some n → isHex c := by
      intro c n hc
      rw [isHex, hc]
      rfl
    rcases t with _ | ⟨a, _ | ⟨b, _ | ⟨c, _ | ⟨d, r⟩⟩⟩⟩ <;>
      simp [Option.bind_eq_some_iff] at h
    obtain ⟨ha, hb, hc, hd⟩ := h
    exact .mk r (isHex_of ha) (isHex_of hb) (isHex_of hc) (isHex_of hd)
  | case2 => exact follows_error (by decide)
  | case3 => exact follows_error (by decide)

/-- One character of a string or more. -/
inductive SomeSymbols : Rule
  | one {t r : List Char} : Symbol t r → SomeSymbols t r
  | cons {t u r : List Char} : Symbol t u → SomeSymbols u r → SomeSymbols t r

theorem SomeSymbols.append {t r e : List Char} (h : SomeSymbols t r) (he : Symbols r e) :
    Symbols t e := by
  induction h with
  | one hsymbol => exact .cons hsymbol he
  | cons hsymbol _ ih => exact .cons hsymbol (ih he)

theorem SomeSymbols.shorter {t r : List Char} (h : SomeSymbols t r) : Shorter t r := by
  induction h with
  | one hsymbol => exact hsymbol.shorter
  | cons hsymbol _ ih => exact hsymbol.shorter.left ih.1

theorem follows_readUnicode (t : List Char) :
    Follows SomeSymbols ('\\' :: 'u' :: t) (readUnicode t) := by
  have one : ∀ {u n r}, readHex u = .ok (n, r) → Symbol ('\\' :: 'u' :: u) r := by
    intro u n r h
    have hunit := follows_readHex u
    rw [h] at hunit
    exact .unit hunit
  have fault : ∀ {u e}, readHex u = .error e → e.cause ≠ .nestedTooDeeply := by
    intro u e h
    have hunit := follows_readHex u
    rw [h] at hunit
    exact hunit
  fun_cases readUnicode t with
  | case1 e h => exact fault h
  | case2 => exact follows_error (by decide)
  | case3 n rest h => exact .one (one h)
  | case4 n _ _ digits e h => exact fault h
  | case5 n _ _ digits m rest hsecond _ hfirst =>
    exact .cons (one hfirst) (.one (one hsecond))
  | case6 => exact follows_error (by decide)
  | case7 => exact follows_failOr (by decide) (by decide)
  | case8 => exact follows_failOr (by decide) (by decide)

theorem follows_readEscape (t : List Char) :
    Follows SomeSymbols ('\\' :: t) (readEscape t) := by
  have short : ∀ {c r}, c ∈ ['"', '\\', '/', 'b', 'f', 'n', 'r', 't'] →
      SomeSymbols ('\\' :: c :: r) r := fun hc => .one (.escape _ hc)
  fun_cases readEscape t with
  | case9 rest => exact follows_readUnicode rest
  | case10 => exact follows_failOr (by decide) (by decide)
  | _ => exact short (by decide)

theorem follows_readChars (fuel : Nat) (read t : List Char) :
    Follows Symbols t (readChars fuel read t) := by
  fun_induction readChars fuel read t with
  | case1 => exact follows_error (by decide)
  | case2 => exact follows_error (by decide)
  | case3 fuel read rest => exact .close rest
  | case4 fuel read escape c rest h ih =>
    have hescape := follows_readEscape escape
    rw [h] at hescape
    exact ih.mono fun r hr => hescape.append hr
  | case5 fuel read escape e h =>
    have hescape := follows_readEscape escape
    rw [h] at hescape
    exact hescape
  | case6 => exact follows_error (by decide)
  | case7 fuel read c rest hquote hslash hplain ih =>
    have hsymbol : Symbol (c :: rest) rest := .plain rest (Char.not_lt.mp hplain) hquote hslash
    exact ih.mono fun r hr => .cons hsymbol hr

/-! ### Values -/

theorem Follows.of_ok {α : Type} {rule : Rule} {t r : List Char} {result : Read α} {a : α}
    (h : Follows rule t result) (hok : result = .ok (a, r)) : rule t r := by
  rw [hok] at h
  exact h

theorem Except.map_eq_ok {ε α β : Type} {f : α → β} {x : Except ε α} {b : β}
    (h : x.map f = .ok b) : ∃ a, x = .ok a ∧ f a = b := by
  cases x with
  | error e => cases h
  | ok a => exact ⟨a, rfl, Except.ok.inj h⟩

/-- What the readers take. The rest of a list or an object is read after a value, so it is described
together with that value. -/
structure Sound (fuel : Nat) : Prop where
  value : ∀ {room t v r}, readValue fuel room t = .ok (v, r) →
    ∃ u, Spaces t u ∧ Grammar.Value u r
  items : ∀ {room read t v r}, readItems fuel room read t = .ok (v, r) →
    ∀ {s u}, Spaces s u → Grammar.Value u t → Items s r
  member : ∀ {room read t v r}, readMember fuel room read t = .ok (v, r) → Grammar.Members t r
  members : ∀ {room read t v r}, readMembers fuel room read t = .ok (v, r) →
    ∀ {s k u}, Key s k → Spaces k u → Grammar.Value u t → Grammar.Members s r

theorem spaces_of_skipSpaces {t u : List Char} (h : skipSpaces t = u) : Spaces t u :=
  h ▸ spaces_skipSpaces t

section

variable {fuel : Nat} {room : Room} {t r : List Char} {v : Value}

theorem sound_readValue : (∀ g < fuel, Sound g) → readValue fuel room t = .ok (v, r) →
    ∃ u, Spaces t u ∧ Grammar.Value u r := by
  have word : ∀ {c w u result}, (c :: w) ∈ words → skipSpaces t = c :: u →
      readWord result w u = .ok (v, r) → ∃ u, Spaces t u ∧ Grammar.Value u r := by
    intro c w u result hw hskip h
    obtain rfl := (follows_readWord result w u).of_ok h
    exact ⟨_, spaces_of_skipSpaces hskip, .word r hw⟩
  fun_cases readValue fuel room t with
  | case3 fuel _ _ rest hskip => exact fun _ => word (by decide) hskip
  | case4 fuel _ _ rest hskip => exact fun _ => word (by decide) hskip
  | case5 fuel _ _ rest hskip => exact fun _ => word (by decide) hskip
  | case6 fuel _ _ rest hskip =>
    intro _ h
    obtain ⟨⟨s, r⟩, hchars, hv⟩ := Except.map_eq_ok h
    cases hv
    exact ⟨_, spaces_of_skipSpaces hskip, .string ((follows_readChars _ _ _).of_ok hchars)⟩
  | case7 fuel _ _ rest hskip =>
    intro _ h
    obtain ⟨⟨n, r⟩, hnumber, hv⟩ := Except.map_eq_ok h
    cases hv
    exact ⟨_, spaces_of_skipSpaces hskip, .negative ((follows_readNumber _ _).of_ok hnumber)⟩
  | case10 fuel _ _ rest hskip room henter after hclose =>
    intro _ h
    cases h
    exact ⟨_, spaces_of_skipSpaces hskip, .emptyList (spaces_of_skipSpaces hclose)⟩
  | case11 fuel _ _ rest hskip room henter w after _ _ hitem =>
    intro ih h
    obtain ⟨u, hu, hvalue⟩ := (ih fuel (Nat.lt_succ_self _)).value hitem
    have hspaces : Spaces rest u := (spaces_skipSpaces rest).trans hu
    have hitems := (ih fuel (Nat.lt_succ_self _)).items h hspaces hvalue
    exact ⟨_, spaces_of_skipSpaces hskip, .list hitems⟩
  | case15 fuel _ _ rest hskip room henter after hclose =>
    intro _ h
    cases h
    exact ⟨_, spaces_of_skipSpaces hskip, .emptyObject (spaces_of_skipSpaces hclose)⟩
  | case16 fuel _ _ rest hskip room henter =>
    intro ih h
    have hmembers := (ih fuel (Nat.lt_succ_self _)).member h
    exact ⟨_, spaces_of_skipSpaces hskip, .object (hmembers.spaces (spaces_skipSpaces rest))⟩
  | case17 fuel _ _ c rest _ _ _ _ _ _ _ hskip =>
    intro _ h
    obtain ⟨⟨n, r⟩, hnumber, hv⟩ := Except.map_eq_ok h
    cases hv
    exact ⟨_, spaces_of_skipSpaces hskip, .number ((follows_readNumber _ _).of_ok hnumber)⟩
  | _ =>
    intro _ h
    cases h

theorem sound_readItems {read : List Value} {s u : List Char} (hs : Spaces s u)
    (hvalue : Grammar.Value u t) :
    (∀ g < fuel, Sound g) → readItems fuel room read t = .ok (v, r) → Items s r := by
  fun_cases readItems fuel room read t with
  | case3 fuel _ _ _ rest hskip =>
    intro _ h
    cases h
    exact .last (.mk hs hvalue (spaces_of_skipSpaces hskip))
  | case6 fuel _ _ _ rest hskip w after _ _ hitem =>
    intro ih h
    obtain ⟨u', hu, hnext⟩ := (ih fuel (Nat.lt_succ_self _)).value hitem
    have hspaces : Spaces rest u' := (spaces_skipSpaces rest).trans hu
    have hitems := (ih fuel (Nat.lt_succ_self _)).items h hspaces hnext
    exact .cons (.mk hs hvalue (spaces_of_skipSpaces hskip)) hitems
  | _ =>
    intro _ h
    cases h

theorem sound_readMember {read : Members} :
    (∀ g < fuel, Sound g) → readMember fuel room read t = .ok (v, r) → Grammar.Members t r := by
  fun_cases readMember fuel room read t with
  | case3 fuel _ _ rest key after hchars rest' hcolon w after' hvalue =>
    intro ih h
    obtain ⟨u, hu, hnext⟩ := (ih fuel (Nat.lt_succ_self _)).value hvalue
    have hkey : Key ('"' :: rest) rest' := .mk (.nil _)
      ((follows_readChars _ _ _).of_ok hchars) (spaces_of_skipSpaces hcolon)
    exact (ih fuel (Nat.lt_succ_self _)).members h hkey hu hnext
  | _ =>
    intro _ h
    cases h

theorem sound_readMembers {read : Members} {s k u : List Char} (hkey : Key s k)
    (hk : Spaces k u) (hvalue : Grammar.Value u t) :
    (∀ g < fuel, Sound g) → readMembers fuel room read t = .ok (v, r) →
      Grammar.Members s r := by
  fun_cases readMembers fuel room read t with
  | case3 fuel _ _ _ rest hskip =>
    intro _ h
    cases h
    exact .last hkey (.mk hk hvalue (spaces_of_skipSpaces hskip))
  | case6 fuel _ _ _ rest hskip =>
    intro ih h
    have hrest := ((ih fuel (Nat.lt_succ_self _)).member h).spaces (spaces_skipSpaces rest)
    exact .cons hkey (.mk hk hvalue (spaces_of_skipSpaces hskip)) hrest
  | _ =>
    intro _ h
    cases h

end

theorem sound (fuel : Nat) : Sound fuel := by
  induction fuel using Nat.strongRecOn with
  | ind fuel ih =>
    constructor
    · intro room t v r h
      exact sound_readValue ih h
    · intro room read t v r h s u hs hvalue
      exact sound_readItems hs hvalue ih h
    · intro room read t v r h
      exact sound_readMember ih h
    · intro room read t v r h s k u hkey hk hvalue
      exact sound_readMembers hkey hk hvalue ih h

/-- A text in which the reader finds a value, at whatever limit of nesting, is one of the grammar. -/
theorem isText_of_readAll {room : Room} {t : List Char} {v : Value}
    (h : readAll room t = .ok v) : IsText t := by
  rw [readAll] at h
  split at h
  · next w rest hvalue =>
    split at h
    · next hend =>
      obtain ⟨u, hu, hv⟩ := (sound _).value hvalue
      exact .mk hu hv (spaces_of_skipSpaces hend)
    · cases h
  · cases h

end RichDoc.Json
