import RoundLedger.Json.Reader

/-!
# Spellings of JSON values

A value has many texts: blanks may stand around its parts, a character of a string may be escaped, and a number
may have a fraction or an exponent. `Spells` says which texts these are. The reader takes each of them for the
value (`parse?_of_document`).
-/

namespace RoundLedger.Json

/-! ## Blanks -/

def Blank (cs : List Char) : Prop := ∀ c ∈ cs, isBlank c = true

theorem blank_nil : Blank [] := fun _ h => absurd h List.not_mem_nil

theorem dropWhile_blank {blanks cs : List Char} (h : Blank blanks) :
    (blanks ++ cs).dropWhile isBlank = cs.dropWhile isBlank :=
  List.dropWhile_append_of_pos h

/-- What may stand behind a value: the end, a blank, a comma or a closing mark. -/
def Follows (rest : List Char) : Prop :=
  ∀ c, rest.head? = some c → isBlank c = true ∨ c = ',' ∨ c = ']' ∨ c = '\x7d'

theorem follows_nil : Follows [] := fun _ h => nomatch h

theorem follows_cons {c : Char} {rest : List Char} (h : isBlank c = true ∨ c = ',' ∨ c = ']' ∨ c = '\x7d') :
    Follows (c :: rest) := fun _ hc => Option.some.inj hc ▸ h

theorem Follows.blank {blanks rest : List Char} (hblank : Blank blanks) (h : Follows rest) :
    Follows (blanks ++ rest) := by
  cases blanks with
  | nil => exact h
  | cons c blanks => exact follows_cons (.inl (hblank c List.mem_cons_self))

/-- The characters that a value and what follows it cannot share. -/
theorem Follows.ends {c : Char} {rest : List Char} (h : Follows rest) (hc : rest.head? = some c) :
    c.isDigit = false ∧ c ≠ '.' ∧ c ≠ 'e' ∧ c ≠ 'E' := by
  have hcases := h c hc
  unfold isBlank at hcases
  rw [Bool.or_eq_true, Bool.or_eq_true, Bool.or_eq_true, decide_eq_true_eq, decide_eq_true_eq, decide_eq_true_eq,
    decide_eq_true_eq] at hcases
  rcases hcases with ((((rfl | rfl) | rfl) | rfl) | rfl | rfl | rfl) <;> decide

/-! ## Numbers -/

/-- One digit or more. -/
def Digits (cs : List Char) : Prop := cs ≠ [] ∧ ∀ c ∈ cs, c.isDigit = true

inductive Whole : List Char → Prop
  | zero : Whole ['0']
  | digits {cs} : Digits cs → cs.head? ≠ some '0' → Whole cs

inductive Fraction : List Char → Prop
  | none : Fraction []
  | digits {cs} : Digits cs → Fraction ('.' :: cs)

inductive Exponent : List Char → Prop
  | none : Exponent []
  | bare {c cs} : c = 'e' ∨ c = 'E' → Digits cs → Exponent (c :: cs)
  | signed {c s cs} : c = 'e' ∨ c = 'E' → s = '+' ∨ s = '-' → Digits cs → Exponent (c :: s :: cs)

inductive Unsigned : List Char → Prop
  | mk {whole fraction exponent} : Whole whole → Fraction fraction → Exponent exponent →
      Unsigned (whole ++ fraction ++ exponent)

inductive Numeral : List Char → Prop
  | plain {cs} : Unsigned cs → Numeral cs
  | negative {cs} : Unsigned cs → Numeral ('-' :: cs)

/-- What cannot go on with digits. -/
def NoDigit (rest : List Char) : Prop := ∀ c, rest.head? = some c → c.isDigit = false

theorem Digits.exists_cons {cs : List Char} (h : Digits cs) :
    ∃ c cs', cs = c :: cs' ∧ c.isDigit = true := by
  obtain ⟨c, cs', rfl⟩ := List.exists_cons_of_ne_nil h.1
  exact ⟨c, cs', rfl, h.2 c List.mem_cons_self⟩

theorem scanDigits_append {cs rest : List Char} (h : Digits cs) (hrest : NoDigit rest) :
    scanDigits (cs ++ rest) = some (cs, rest) := by
  have htake : (cs ++ rest).takeWhile Char.isDigit = cs ∧ (cs ++ rest).dropWhile Char.isDigit = rest := by
    rw [List.takeWhile_append_of_pos h.2, List.dropWhile_append_of_pos h.2]
    cases rest with
    | nil => exact ⟨List.append_nil cs, rfl⟩
    | cons c rest =>
      have hc : ¬ c.isDigit = true := by
        rw [hrest c rfl]
        exact Bool.false_ne_true
      rw [List.takeWhile_cons_of_neg hc, List.dropWhile_cons_of_neg hc, List.append_nil]
      exact ⟨rfl, rfl⟩
  unfold scanDigits
  rw [htake.1, htake.2]
  exact if_neg h.1

theorem scanWhole_append {cs rest : List Char} (h : Whole cs) (hrest : NoDigit rest) :
    scanWhole (cs ++ rest) = some (cs, rest) := by
  cases h with
  | zero => rfl
  | digits hdigits hzero =>
    obtain ⟨c, cs', rfl, -⟩ := hdigits.exists_cons
    have hc : c ≠ '0' := fun hc => hzero (congrArg some hc)
    have hscan := scanDigits_append hdigits hrest
    rw [List.cons_append] at hscan ⊢
    unfold scanWhole
    split
    · next heq => exact absurd (List.cons.inj heq).1 hc
    · exact hscan

theorem scanFraction_append {cs rest : List Char} (h : Fraction cs) (hrest : NoDigit rest)
    (hpoint : rest.head? ≠ some '.') : scanFraction (cs ++ rest) = some (cs, rest) := by
  cases h with
  | none =>
    rw [List.nil_append]
    unfold scanFraction
    split
    · exact absurd rfl hpoint
    · rfl
  | digits hdigits =>
    rw [List.cons_append, scanFraction, scanDigits_append hdigits hrest]
    rfl

theorem scanExponent_append {cs rest : List Char} (h : Exponent cs) (hrest : Follows rest) :
    scanExponent (cs ++ rest) = some (cs, rest) := by
  have hdigit : NoDigit rest := fun _ hc => (hrest.ends hc).1
  cases h with
  | none =>
    rw [List.nil_append]
    cases rest with
    | nil => rfl
    | cons c rest =>
      obtain ⟨-, -, hlower, hupper⟩ := hrest.ends rfl
      unfold scanExponent
      exact if_neg (not_or.2 ⟨hlower, hupper⟩)
  | bare hc hdigits =>
    obtain ⟨d, ds, rfl, hd⟩ := hdigits.exists_cons
    have hscan := scanDigits_append hdigits hdigit
    have hsign : ¬ (d = '+' ∨ d = '-') := by
      rintro (rfl | rfl) <;> exact absurd hd (by decide)
    rw [List.cons_append] at hscan
    rw [List.cons_append, List.cons_append, scanExponent, if_pos hc]
    dsimp only
    rw [if_neg hsign, hscan]
    rfl
  | signed hc hs hdigits =>
    rw [List.cons_append, List.cons_append, scanExponent, if_pos hc]
    dsimp only
    rw [if_pos hs, scanDigits_append hdigits hdigit]
    rfl

theorem Exponent.noDigit {cs rest : List Char} (h : Exponent cs) (hrest : Follows rest) :
    NoDigit (cs ++ rest) ∧ (cs ++ rest).head? ≠ some '.' := by
  have hmark {c : Char} {cs' : List Char} (hc : c = 'e' ∨ c = 'E') :
      NoDigit (c :: cs') ∧ (c :: cs').head? ≠ some '.' := by
    refine ⟨fun d hd => ?_, fun hpoint => ?_⟩
    · obtain rfl := Option.some.inj hd
      rcases hc with rfl | rfl <;> rfl
    · obtain rfl := Option.some.inj hpoint
      revert hc
      decide
  cases h with
  | none => exact ⟨fun _ hc => (hrest.ends hc).1, fun hpoint => (hrest.ends hpoint).2.1 rfl⟩
  | bare hc _ => exact hmark hc
  | signed hc _ _ => exact hmark hc

theorem Fraction.noDigit {cs rest : List Char} (h : Fraction cs) (hrest : NoDigit rest) : NoDigit (cs ++ rest) := by
  cases h with
  | none => exact hrest
  | digits _ =>
    intro c hc
    obtain rfl := Option.some.inj hc
    rfl

theorem scanUnsigned_append {cs rest : List Char} (h : Unsigned cs) (hrest : Follows rest) :
    scanUnsigned (cs ++ rest) = some (cs, rest) := by
  cases h with
  | @mk whole fraction exponent hwhole hfraction hexponent =>
    obtain ⟨hdigit, hpoint⟩ := hexponent.noDigit hrest
    unfold scanUnsigned
    rw [List.append_assoc, List.append_assoc, scanWhole_append hwhole (hfraction.noDigit hdigit)]
    simp only [Option.bind_eq_bind, Option.bind_some]
    rw [scanFraction_append hfraction hdigit hpoint]
    simp only [Option.bind_some]
    rw [scanExponent_append hexponent hrest]
    simp

theorem Unsigned.exists_cons {cs : List Char} (h : Unsigned cs) :
    ∃ c cs', cs = c :: cs' ∧ c.isDigit = true := by
  cases h with
  | @mk whole fraction exponent hwhole _ _ =>
    cases hwhole with
    | zero => exact ⟨'0', _, rfl, rfl⟩
    | digits hdigits _ =>
      obtain ⟨c, cs', rfl, hc⟩ := hdigits.exists_cons
      exact ⟨c, _, rfl, hc⟩

theorem not_isBlank_of_isDigit {c : Char} (h : c.isDigit = true) : isBlank c = false := by
  unfold isBlank
  rw [Bool.or_eq_false_iff, Bool.or_eq_false_iff, Bool.or_eq_false_iff, decide_eq_false_iff_not,
    decide_eq_false_iff_not, decide_eq_false_iff_not, decide_eq_false_iff_not]
  refine ⟨⟨⟨?_, ?_⟩, ?_⟩, ?_⟩ <;> rintro rfl <;> exact absurd h (by decide)

/-- A token that begins with a digit is a number. -/
theorem scanToken_digit {c : Char} (cs : List Char) (h : c.isDigit = true) :
    scanToken (c :: cs) = (do
      let (text, rest) ← scanUnsigned (c :: cs)
      some (.number (String.ofList text), rest)) := by
  unfold scanToken
  split <;> first
    | rfl
    | next heq =>
      obtain rfl := (List.cons.inj heq).1
      exact absurd h (by decide)

theorem scanToken_numeral {cs rest : List Char} (h : Numeral cs) (hrest : Follows rest) :
    scanToken (cs ++ rest) = some (.number (String.ofList cs), rest) := by
  cases h with
  | plain hunsigned =>
    have hscan := scanUnsigned_append hunsigned hrest
    obtain ⟨c, cs', rfl, hc⟩ := hunsigned.exists_cons
    rw [List.cons_append] at hscan ⊢
    rw [scanToken_digit _ hc, hscan]
    rfl
  | negative hunsigned =>
    rw [List.cons_append, scanToken, scanUnsigned_append hunsigned hrest]
    rfl

theorem Numeral.exists_cons {cs : List Char} (h : Numeral cs) : ∃ c cs', cs = c :: cs' ∧ isBlank c = false := by
  cases h with
  | plain hunsigned =>
    obtain ⟨c, cs', rfl, hc⟩ := hunsigned.exists_cons
    exact ⟨c, cs', rfl, not_isBlank_of_isDigit hc⟩
  | negative _ => exact ⟨'-', _, rfl, rfl⟩

/-! ## Strings -/

/-- The text between the quotes. A character stands for itself or is escaped, one behind the first 65536 by the two
halves of its surrogate pair. -/
inductive Escaped : List Char → List Char → Prop
  | nil : Escaped [] []
  | plain {c chars text} : 32 ≤ c.toNat → c ≠ '"' → c ≠ '\\' → Escaped chars text →
      Escaped (c :: chars) (c :: text)
  | short {c e chars text} : escapedChar? e = some c.toNat → Escaped chars text →
      Escaped (c :: chars) ('\\' :: e :: text)
  | unit {c x y z w chars text} : hexUnit? x y z w = some c.toNat → Escaped chars text →
      Escaped (c :: chars) ('\\' :: 'u' :: x :: y :: z :: w :: text)
  | pair {high low x y z w x' y' z' w' chars text} : hexUnit? x y z w = some high →
      hexUnit? x' y' z' w' = some low → 0xd800 ≤ high → high < 0xdc00 → 0xdc00 ≤ low → low < 0xe000 →
      Escaped chars text →
      Escaped (Char.ofNat (0x10000 + (high - 0xd800) * 0x400 + (low - 0xdc00)) :: chars)
        ('\\' :: 'u' :: x :: y :: z :: w :: '\\' :: 'u' :: x' :: y' :: z' :: w' :: text)

theorem joinUnits_char {c : Char} {units : List Nat} {chars : List Char} (h : joinUnits units = some chars) :
    joinUnits (c.toNat :: units) = some (c :: chars) := by
  have hvalid : c.toNat < 0xd800 ∨ 0xdfff < c.toNat ∧ c.toNat < 0x110000 := c.valid
  unfold joinUnits
  rw [if_neg (by omega), if_neg (by omega), h]
  exact congrArg (fun c => some (c :: chars)) c.ofNat_toNat

theorem joinUnits_pair {high low : Nat} {units : List Nat} {chars : List Char} (hhigh : 0xd800 ≤ high)
    (hhigh' : high < 0xdc00) (hlow : 0xdc00 ≤ low) (hlow' : low < 0xe000) (h : joinUnits units = some chars) :
    joinUnits (high :: low :: units)
      = some (Char.ofNat (0x10000 + (high - 0xd800) * 0x400 + (low - 0xdc00)) :: chars) := by
  rw [joinUnits, if_pos ⟨hhigh, hhigh'⟩, if_pos ⟨hlow, hlow'⟩, h]
  rfl

section

variable {cs rest : List Char} {units : List Nat}

theorem scanString_plain {c : Char} (hcontrol : 32 ≤ c.toNat) (hquote : c ≠ '"') (hslash : c ≠ '\\')
    (h : scanString cs = some (units, rest)) : scanString (c :: cs) = some (c.toNat :: units, rest) := by
  have hscans : ¬ (c.toNat < 32 ∨ c = '\\') := not_or.2 ⟨by omega, hslash⟩
  rw [scanString, if_neg hscans, h]
  · rfl
  · exact hquote
  · exact fun _ _ _ _ _ hc _ => hslash hc
  · exact fun _ _ hc _ => hslash hc

theorem scanString_short {e : Char} {n : Nat} (hshort : escapedChar? e = some n)
    (h : scanString cs = some (units, rest)) : scanString ('\\' :: e :: cs) = some (n :: units, rest) := by
  rw [scanString, hshort, h]
  · rfl
  · rintro _ _ _ _ _ rfl _
    cases hshort

theorem scanString_unit {x y z w : Char} {n : Nat} (hunit : hexUnit? x y z w = some n)
    (h : scanString cs = some (units, rest)) :
    scanString ('\\' :: 'u' :: x :: y :: z :: w :: cs) = some (n :: units, rest) := by
  rw [scanString, hunit, h]
  rfl

end

theorem Escaped.scans {chars text : List Char} (h : Escaped chars text) (rest : List Char) :
    ∃ units, scanString (text ++ '"' :: rest) = some (units, rest) ∧ joinUnits units = some chars := by
  induction h with
  | nil => exact ⟨[], rfl, rfl⟩
  | plain hcontrol hquote hslash _ ih =>
    obtain ⟨units, hscan, hjoin⟩ := ih
    exact ⟨_, scanString_plain hcontrol hquote hslash hscan, joinUnits_char hjoin⟩
  | short hshort _ ih =>
    obtain ⟨units, hscan, hjoin⟩ := ih
    exact ⟨_, scanString_short hshort hscan, joinUnits_char hjoin⟩
  | unit hunit _ ih =>
    obtain ⟨units, hscan, hjoin⟩ := ih
    exact ⟨_, scanString_unit hunit hscan, joinUnits_char hjoin⟩
  | pair hhigh hlow hhigh₁ hhigh₂ hlow₁ hlow₂ _ ih =>
    obtain ⟨units, hscan, hjoin⟩ := ih
    exact ⟨_, scanString_unit hhigh (scanString_unit hlow hscan), joinUnits_pair hhigh₁ hhigh₂ hlow₁ hlow₂ hjoin⟩

inductive Quoted : List Char → List Char → Prop
  | mk {chars text} : Escaped chars text → Quoted chars ('"' :: text ++ ['"'])

theorem scanToken_quoted {chars text : List Char} (h : Quoted chars text) (rest : List Char) :
    scanToken (text ++ rest) = some (.string (some (String.ofList chars)), rest) := by
  cases h with
  | mk hescaped =>
    obtain ⟨units, hscan, hjoin⟩ := hescaped.scans rest
    rw [List.append_assoc, List.cons_append, List.singleton_append, scanToken, hscan]
    change some (Token.string ((joinUnits units).map String.ofList), rest) = _
    rw [hjoin]
    rfl

/-! ## Values -/

/-- A value, or the items or fields between two brackets. -/
inductive Form
  | value (v : Json)
  | items (vs : List Json)
  | fields (fs : List (Option String × Json))

/-- The texts of a value, and of one item or field or more with the blanks around them. -/
inductive Spells : Form → List Char → Prop
  | null : Spells (.value null) "null".toList
  | yes : Spells (.value (bool true)) "true".toList
  | no : Spells (.value (bool false)) "false".toList
  | number {cs} : Numeral cs → Spells (.value (number (String.ofList cs))) cs
  | string {chars cs} : Quoted chars cs → Spells (.value (string (some (String.ofList chars)))) cs
  | emptyArray {blanks} : Blank blanks → Spells (.value (array [])) ('[' :: blanks ++ [']'])
  | array {vs cs} : Spells (.items vs) cs → Spells (.value (array vs)) ('[' :: cs ++ [']'])
  | emptyObject {blanks} : Blank blanks → Spells (.value (object [])) ('\x7b' :: blanks ++ ['\x7d'])
  | object {fs cs} : Spells (.fields fs) cs → Spells (.value (object fs)) ('\x7b' :: cs ++ ['\x7d'])
  | item {before v cs after} : Blank before → Spells (.value v) cs → Blank after →
      Spells (.items [v]) (before ++ cs ++ after)
  | items {before v cs after vs more} : Blank before → Spells (.value v) cs → Blank after →
      Spells (.items vs) more → Spells (.items (v :: vs)) (before ++ cs ++ after ++ ',' :: more)
  | field {before name title middle inner v cs after} : Blank before → Quoted name title → Blank middle →
      Blank inner → Spells (.value v) cs → Blank after →
      Spells (.fields [(some (String.ofList name), v)]) (before ++ title ++ middle ++ ':' :: inner ++ cs ++ after)
  | fields {before name title middle inner v cs after fs more} : Blank before → Quoted name title → Blank middle →
      Blank inner → Spells (.value v) cs → Blank after → Spells (.fields fs) more →
      Spells (.fields ((some (String.ofList name), v) :: fs))
        (before ++ title ++ middle ++ ':' :: inner ++ cs ++ after ++ ',' :: more)

/-- The texts of a file that holds a value. -/
inductive Document : Json → List Char → Prop
  | mk {before v cs after} : Blank before → Spells (.value v) cs → Blank after → Document v (before ++ cs ++ after)

/-! ## From texts to tokens -/

/-- The text has these tokens. -/
def Scans (cs : List Char) (tokens : List Token) : Prop := ∀ fuel, cs.length < fuel → scan fuel cs = some tokens

theorem Scans.nil : Scans [] [] := by
  intro fuel hfuel
  cases fuel with
  | zero => omega
  | succ fuel => rfl

theorem Scans.blank {blanks cs : List Char} {tokens : List Token} (hblank : Blank blanks) (h : Scans cs tokens) :
    Scans (blanks ++ cs) tokens := by
  intro fuel hfuel
  rw [List.length_append] at hfuel
  have hscan := h fuel (by omega)
  cases fuel with
  | zero => omega
  | succ fuel =>
    unfold scan at hscan ⊢
    rwa [dropWhile_blank hblank]

theorem Scans.token {c : Char} {cs rest : List Char} {token : Token} {tokens : List Token} (hc : isBlank c = false)
    (htoken : scanToken (c :: cs ++ rest) = some (token, rest)) (h : Scans rest tokens) :
    Scans (c :: cs ++ rest) (token :: tokens) := by
  intro fuel hfuel
  rw [List.length_append, List.length_cons] at hfuel
  cases fuel with
  | zero => omega
  | succ fuel =>
    have hscan := h fuel (by omega)
    have hdrop : (c :: cs ++ rest).dropWhile isBlank = c :: (cs ++ rest) := by
      rw [List.cons_append, List.dropWhile_cons_of_neg (by rw [hc]; exact Bool.false_ne_true)]
    rw [List.cons_append] at htoken
    unfold scan
    rw [hdrop]
    dsimp only
    rw [htoken]
    change (do
      let tokens ← scan fuel rest
      some (token :: tokens)) = _
    rw [hscan]
    rfl

/-- A token of one character. -/
theorem Scans.mark {rest : List Char} {tokens : List Token} (c : Char) (token : Token)
    (htoken : scanToken (c :: rest) = some (token, rest)) (hc : isBlank c = false) (h : Scans rest tokens) :
    Scans (c :: rest) (token :: tokens) := by
  have hscans : Scans (c :: [] ++ rest) (token :: tokens) := h.token hc htoken
  exact hscans

/-! ## From tokens to values -/

/-- The reader takes the tokens for the value, or for what stands before the closing bracket. Twice as much fuel as
there are tokens is enough. -/
def Form.ReadFrom (tokens : List Token) : Form → Prop
  | .value v => ∀ fuel rest, 2 * tokens.length ≤ fuel → readValue fuel (tokens ++ rest) = some (v, rest)
  | .items vs => ∀ fuel rest, 2 * tokens.length < fuel →
      readItems fuel (tokens ++ .rightBracket :: rest) = some (vs, rest)
  | .fields fs => ∀ fuel rest, 2 * tokens.length < fuel →
      readFields fuel (tokens ++ .rightBrace :: rest) = some (fs, rest)

/-- A text and the tokens by which it is read. -/
structure Reading (form : Form) (cs : List Char) (tokens : List Token) : Prop where
  scans : ∀ rest more, Follows rest → Scans rest more → Scans (cs ++ rest) (tokens ++ more)
  opens : ∃ first others, tokens = first :: others ∧ first ≠ .rightBracket ∧ first ≠ .rightBrace
  reads : form.ReadFrom tokens

/-- A value of one token. -/
theorem reading_of_token {v : Json} {cs : List Char} {token : Token}
    (hcs : ∃ c cs', cs = c :: cs' ∧ isBlank c = false)
    (htoken : ∀ rest, Follows rest → scanToken (cs ++ rest) = some (token, rest))
    (hread : ∀ fuel rest, readValue (fuel + 1) (token :: rest) = some (v, rest))
    (hopens : token ≠ .rightBracket ∧ token ≠ .rightBrace) : Reading (.value v) cs [token] where
  scans rest more hrest hmore := by
    obtain ⟨c, cs', rfl, hc⟩ := hcs
    exact hmore.token hc (htoken rest hrest)
  opens := ⟨token, [], rfl, hopens⟩
  reads fuel rest hfuel := by
    cases fuel with
    | zero => exact absurd hfuel (Nat.not_succ_le_zero 1)
    | succ fuel => exact hread fuel rest

theorem reading_of_word {v : Json} {c : Char} {word : List Char} {token : Token} (hc : isBlank c = false)
    (htoken : ∀ rest, scanToken (c :: word ++ rest) = some (token, rest))
    (hread : ∀ fuel rest, readValue (fuel + 1) (token :: rest) = some (v, rest))
    (hopens : token ≠ .rightBracket ∧ token ≠ .rightBrace) : Reading (.value v) (c :: word) [token] :=
  reading_of_token ⟨c, word, rfl, hc⟩ (fun rest _ => htoken rest) hread hopens

section

variable {before after middle inner cs more name title : List Char} {v : Json} {vs : List Json}
  {fs : List (Option String × Json)} {tokens others : List Token}

theorem reading_emptyArray (hblank : Blank inner) :
    Reading (.value (array [])) ('[' :: inner ++ [']']) [.leftBracket, .rightBracket] where
  scans rest more hrest hmore := by
    have hopened := ((hmore.mark ']' .rightBracket rfl rfl).blank hblank).mark '[' .leftBracket rfl rfl
    simpa using hopened
  opens := ⟨.leftBracket, _, rfl, by simp, by simp⟩
  reads fuel rest hfuel := by
    cases fuel with
    | zero => exact absurd hfuel (Nat.not_succ_le_zero 3)
    | succ fuel => rfl

theorem reading_emptyObject (hblank : Blank inner) :
    Reading (.value (object [])) ('\x7b' :: inner ++ ['\x7d']) [.leftBrace, .rightBrace] where
  scans rest more hrest hmore := by
    have hopened := ((hmore.mark '\x7d' .rightBrace rfl rfl).blank hblank).mark '\x7b' .leftBrace rfl rfl
    simpa using hopened
  opens := ⟨.leftBrace, _, rfl, by simp, by simp⟩
  reads fuel rest hfuel := by
    cases fuel with
    | zero => exact absurd hfuel (Nat.not_succ_le_zero 3)
    | succ fuel => rfl

theorem Reading.array (h : Reading (.items vs) cs tokens) :
    Reading (.value (array vs)) ('[' :: cs ++ [']']) (.leftBracket :: tokens ++ [.rightBracket]) where
  scans rest more hrest hmore := by
    have hclosed := hmore.mark ']' .rightBracket rfl rfl
    have hitems := h.scans _ _ (follows_cons (.inr (.inr (.inl rfl)))) hclosed
    have hopened := hitems.mark '[' .leftBracket rfl rfl
    simpa using hopened
  opens := ⟨.leftBracket, _, rfl, by simp, by simp⟩
  reads fuel rest hfuel := by
    obtain ⟨first, others, rfl, hfirst, -⟩ := h.opens
    rw [List.length_append, List.length_cons, List.length_singleton] at hfuel
    cases fuel with
    | zero => omega
    | succ fuel =>
      have hread := h.reads fuel rest (by omega)
      rw [List.append_assoc, List.cons_append, List.singleton_append, readValue, hread]
      · rfl
      · intro _ heq
        exact hfirst (List.cons.inj heq).1

theorem Reading.object (h : Reading (.fields fs) cs tokens) :
    Reading (.value (object fs)) ('\x7b' :: cs ++ ['\x7d']) (.leftBrace :: tokens ++ [.rightBrace]) where
  scans rest more hrest hmore := by
    have hclosed := hmore.mark '\x7d' .rightBrace rfl rfl
    have hfields := h.scans _ _ (follows_cons (.inr (.inr (.inr rfl)))) hclosed
    have hopened := hfields.mark '\x7b' .leftBrace rfl rfl
    simpa using hopened
  opens := ⟨.leftBrace, _, rfl, by simp, by simp⟩
  reads fuel rest hfuel := by
    obtain ⟨first, others, rfl, -, hfirst⟩ := h.opens
    rw [List.length_append, List.length_cons, List.length_singleton] at hfuel
    cases fuel with
    | zero => omega
    | succ fuel =>
      have hread := h.reads fuel rest (by omega)
      rw [List.append_assoc, List.cons_append, List.singleton_append, readValue, hread]
      · rfl
      · intro _ heq
        exact hfirst (List.cons.inj heq).1

theorem Reading.item (hbefore : Blank before) (h : Reading (.value v) cs tokens) (hafter : Blank after) :
    Reading (.items [v]) (before ++ cs ++ after) tokens where
  scans rest more hrest hmore := by
    rw [List.append_assoc, List.append_assoc]
    exact (h.scans _ _ (hrest.blank hafter) (hmore.blank hafter)).blank hbefore
  opens := h.opens
  reads fuel rest hfuel := by
    cases fuel with
    | zero => omega
    | succ fuel =>
      rw [readItems, h.reads fuel _ (by omega)]
      rfl

theorem Reading.items (hbefore : Blank before) (h : Reading (.value v) cs tokens) (hafter : Blank after)
    (hmore : Reading (.items vs) more others) :
    Reading (.items (v :: vs)) (before ++ cs ++ after ++ ',' :: more) (tokens ++ .comma :: others) where
  scans rest last hrest hlast := by
    have hcomma := (hmore.scans _ _ hrest hlast).mark ',' .comma rfl rfl
    have hfollows : Follows (',' :: (more ++ rest)) := follows_cons (.inr (.inl rfl))
    have hvalue := (h.scans _ _ (hfollows.blank hafter) (hcomma.blank hafter)).blank hbefore
    simpa using hvalue
  opens := by
    obtain ⟨first, rest, rfl, hfirst⟩ := h.opens
    exact ⟨first, _, rfl, hfirst⟩
  reads fuel rest hfuel := by
    rw [List.length_append, List.length_cons] at hfuel
    cases fuel with
    | zero => omega
    | succ fuel =>
      rw [List.append_assoc, List.cons_append, readItems, h.reads fuel _ (by omega)]
      simp only [Option.bind_eq_bind, Option.bind_some]
      rw [hmore.reads fuel rest (by omega)]
      rfl

/-- The scanner takes the name and the colon of a field. -/
theorem scans_title (hbefore : Blank before) (htitle : Quoted name title) (hmiddle : Blank middle)
    (hinner : Blank inner) (h : Scans cs tokens) :
    Scans (before ++ title ++ middle ++ ':' :: inner ++ cs)
      (.string (some (String.ofList name)) :: .colon :: tokens) := by
  have hcolon := ((h.blank hinner).mark ':' .colon rfl rfl).blank hmiddle
  have hscan := scanToken_quoted htitle (middle ++ ':' :: (inner ++ cs))
  cases htitle with
  | mk hescaped =>
    have hquote : isBlank '"' = false := rfl
    have hname := (hcolon.token hquote hscan).blank hbefore
    simpa using hname

theorem Reading.field (hbefore : Blank before) (htitle : Quoted name title) (hmiddle : Blank middle)
    (hinner : Blank inner) (h : Reading (.value v) cs tokens) (hafter : Blank after) :
    Reading (.fields [(some (String.ofList name), v)]) (before ++ title ++ middle ++ ':' :: inner ++ cs ++ after)
      (.string (some (String.ofList name)) :: .colon :: tokens) where
  scans rest more hrest hmore := by
    have hvalue := h.scans _ _ (hrest.blank hafter) (hmore.blank hafter)
    have hfield := scans_title hbefore htitle hmiddle hinner hvalue
    simpa using hfield
  opens := ⟨_, _, rfl, by simp, by simp⟩
  reads fuel rest hfuel := by
    rw [List.length_cons, List.length_cons] at hfuel
    cases fuel with
    | zero => omega
    | succ fuel =>
      rw [List.cons_append, List.cons_append, readFields, h.reads fuel _ (by omega)]
      rfl

theorem Reading.fields (hbefore : Blank before) (htitle : Quoted name title) (hmiddle : Blank middle)
    (hinner : Blank inner) (h : Reading (.value v) cs tokens) (hafter : Blank after)
    (hmore : Reading (.fields fs) more others) :
    Reading (.fields ((some (String.ofList name), v) :: fs))
      (before ++ title ++ middle ++ ':' :: inner ++ cs ++ after ++ ',' :: more)
      (.string (some (String.ofList name)) :: .colon :: (tokens ++ .comma :: others)) where
  scans rest last hrest hlast := by
    have hcomma := (hmore.scans _ _ hrest hlast).mark ',' .comma rfl rfl
    have hfollows : Follows (',' :: (more ++ rest)) := follows_cons (.inr (.inl rfl))
    have hvalue := h.scans _ _ (hfollows.blank hafter) (hcomma.blank hafter)
    have hfield := scans_title hbefore htitle hmiddle hinner hvalue
    simpa using hfield
  opens := ⟨_, _, rfl, by simp, by simp⟩
  reads fuel rest hfuel := by
    rw [List.length_cons, List.length_cons, List.length_append, List.length_cons] at hfuel
    cases fuel with
    | zero => omega
    | succ fuel =>
      rw [List.cons_append, List.cons_append, List.append_assoc, List.cons_append, readFields,
        h.reads fuel _ (by omega)]
      simp only [Option.bind_eq_bind, Option.bind_some]
      rw [hmore.reads fuel rest (by omega)]
      rfl

end

theorem Spells.exists_reading {form : Form} {cs : List Char} (h : Spells form cs) :
    ∃ tokens, Reading form cs tokens := by
  induction h with
  | null => exact ⟨_, reading_of_word rfl (fun _ => rfl) (fun _ _ => rfl) (by simp)⟩
  | yes => exact ⟨_, reading_of_word rfl (fun _ => rfl) (fun _ _ => rfl) (by simp)⟩
  | no => exact ⟨_, reading_of_word rfl (fun _ => rfl) (fun _ _ => rfl) (by simp)⟩
  | number hnumeral =>
    exact ⟨_, reading_of_token hnumeral.exists_cons (fun _ hrest => scanToken_numeral hnumeral hrest)
      (fun _ _ => rfl) (by simp)⟩
  | @string chars cs hquoted =>
    have hcs : ∃ c cs', cs = c :: cs' ∧ isBlank c = false := by
      cases hquoted with
      | mk _ => exact ⟨'"', _, rfl, rfl⟩
    exact ⟨_, reading_of_token hcs (fun rest _ => scanToken_quoted hquoted rest) (fun _ _ => rfl) (by simp)⟩
  | emptyArray hblank => exact ⟨_, reading_emptyArray hblank⟩
  | array _ ih =>
    obtain ⟨tokens, hreading⟩ := ih
    exact ⟨_, hreading.array⟩
  | emptyObject hblank => exact ⟨_, reading_emptyObject hblank⟩
  | object _ ih =>
    obtain ⟨tokens, hreading⟩ := ih
    exact ⟨_, hreading.object⟩
  | item hbefore _ hafter ih =>
    obtain ⟨tokens, hreading⟩ := ih
    exact ⟨_, hreading.item hbefore hafter⟩
  | items hbefore _ hafter _ ih ihmore =>
    obtain ⟨tokens, hreading⟩ := ih
    obtain ⟨others, hmore⟩ := ihmore
    exact ⟨_, hreading.items hbefore hafter hmore⟩
  | field hbefore htitle hmiddle hinner _ hafter ih =>
    obtain ⟨tokens, hreading⟩ := ih
    exact ⟨_, hreading.field hbefore htitle hmiddle hinner hafter⟩
  | fields hbefore htitle hmiddle hinner _ hafter _ ih ihmore =>
    obtain ⟨tokens, hreading⟩ := ih
    obtain ⟨others, hmore⟩ := ihmore
    exact ⟨_, hreading.fields hbefore htitle hmiddle hinner hafter hmore⟩

/-- The reader takes every text of a value for that value. -/
theorem parse?_of_document {v : Json} {text : List Char} (h : Document v text) : parse? text = some v := by
  cases h with
  | @mk before v cs after hbefore hspells hafter =>
    obtain ⟨tokens, hreading⟩ := hspells.exists_reading
    have hafter' : Scans after [] := by
      have hend := Scans.nil.blank hafter
      rwa [List.append_nil] at hend
    have hfollows : Follows after := by
      have hend := follows_nil.blank hafter
      rwa [List.append_nil] at hend
    have hscans := (hreading.scans _ _ hfollows hafter').blank hbefore
    have htokens : tokens? (before ++ cs ++ after) = some tokens := by
      rw [List.append_assoc, tokens?, hscans _ (Nat.lt_succ_self _), List.append_nil]
    have hread := hreading.reads (2 * tokens.length + 2) [] (by omega)
    rw [List.append_nil] at hread
    rw [parse?, htokens, Option.bind_eq_bind, Option.bind_some, hread]
    rfl

end RoundLedger.Json
