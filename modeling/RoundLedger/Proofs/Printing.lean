import RoundLedger.Proofs.Spelling

/-!
# Printed JSON values

What the printer writes of a value is one of the texts of that value, if it has any. A count has one, and is read
back as the same count.
-/

namespace RoundLedger.Json

/-! ## Strings -/

theorem hexUnit?_control : ∀ n < 32,
    hexUnit? '0' '0' (if n < 16 then '0' else '1') ((Nat.toDigits 16 (n % 16)).headD '0') = some n := by
  decide

theorem escaped_escape (c : Char) {chars text : List Char} (h : Escaped chars text) :
    Escaped (c :: chars) (escape c ++ text) := by
  unfold escape
  by_cases hquote : c = '"'
  · subst hquote
    exact .short rfl h
  by_cases hslash : c = '\\'
  · subst hslash
    exact .short rfl h
  by_cases hnewline : c = '\n'
  · subst hnewline
    exact .short rfl h
  by_cases hreturn : c = '\r'
  · subst hreturn
    exact .short rfl h
  by_cases htab : c = '\t'
  · subst htab
    exact .short rfl h
  rw [if_neg hquote, if_neg hslash, if_neg hnewline, if_neg hreturn, if_neg htab]
  split
  · next hback => exact .short (congrArg some hback.symm) h
  split
  · next hfeed => exact .short (congrArg some hfeed.symm) h
  split
  · next hcontrol => exact .unit (hexUnit?_control c.toNat hcontrol) h
  · next hcontrol => exact .plain (Nat.le_of_not_lt hcontrol) hquote hslash h

theorem quoted_quote (name : List Char) : Quoted name (quote (some (String.ofList name))) := by
  have hescaped : Escaped name (name.flatMap escape) := by
    induction name with
    | nil => exact .nil
    | cons c chars ih => exact escaped_escape c ih
  unfold quote
  rw [Option.getD_some, String.toList_ofList]
  exact .mk hescaped

/-! ## Values -/

theorem blank_indent (depth : Nat) : Blank (indent depth) := by
  intro c hc
  rcases List.mem_cons.1 hc with rfl | hc
  · rfl
  · rw [List.eq_of_mem_replicate hc]
    rfl

theorem blank_space : Blank [' '] := fun c hc => by rw [List.mem_singleton.1 hc]; rfl

/-- Items and fields may have more blanks behind them. -/
theorem Spells.trail {form : Form} {cs blanks : List Char} (h : Spells form cs) (hblank : Blank blanks) :
    match form with
    | .value _ => True
    | _ => Spells form (cs ++ blanks) := by
  have happend {after : List Char} (hafter : Blank after) : Blank (after ++ blanks) := fun c hc =>
    (List.mem_append.1 hc).elim (hafter c) (hblank c)
  induction h with
  | item hbefore hvalue hafter _ =>
    have htrail := Spells.item hbefore hvalue (happend hafter)
    simpa using htrail
  | items hbefore hvalue hafter _ _ ih =>
    have htrail := Spells.items hbefore hvalue hafter ih
    simpa using htrail
  | field hbefore htitle hmiddle hinner hvalue hafter _ =>
    have htrail := Spells.field hbefore htitle hmiddle hinner hvalue (happend hafter)
    simpa using htrail
  | fields hbefore htitle hmiddle hinner hvalue hafter _ _ ih =>
    have htrail := Spells.fields hbefore htitle hmiddle hinner hvalue hafter ih
    simpa using htrail
  | _ => trivial

def Form.pretty (depth : Nat) : Form → List Char
  | .value v => Json.pretty depth v
  | .items vs => prettyItems depth vs
  | .fields fs => prettyFields depth fs

/-- A value that can be written is written by the printer. -/
theorem Spells.pretty {form : Form} {cs : List Char} (h : Spells form cs) (depth : Nat) :
    Spells form (form.pretty depth) := by
  induction h generalizing depth with
  | null => exact .null
  | yes => exact .yes
  | no => exact .no
  | @number cs hnumeral =>
    change Spells _ (String.ofList cs).toList
    rw [String.toList_ofList]
    exact .number hnumeral
  | @string chars cs _ => exact .string (quoted_quote chars)
  | emptyArray _ => exact .emptyArray blank_nil
  | emptyObject _ => exact .emptyObject blank_nil
  | @array vs cs hitems ih =>
    have hspells := Spells.array ((ih (depth + 1)).trail (blank_indent depth))
    cases vs with
    | nil => cases hitems
    | cons v vs => exact hspells
  | @object fs cs hfields ih =>
    have hspells := Spells.object ((ih (depth + 1)).trail (blank_indent depth))
    cases fs with
    | nil => cases hfields
    | cons f fs => exact hspells
  | item _ _ _ ih =>
    have hspells := Spells.item (blank_indent depth) (ih depth) blank_nil
    rwa [List.append_nil] at hspells
  | @items _ v _ _ vs _ _ _ _ hmore ih ihmore =>
    have hspells := Spells.items (blank_indent depth) (ih depth) blank_nil (ihmore depth)
    rw [List.append_nil] at hspells
    cases vs with
    | nil => cases hmore
    | cons w vs => exact hspells
  | @field _ name _ _ _ v _ _ _ _ _ _ _ _ ih =>
    have hspells := Spells.field (blank_indent depth) (quoted_quote name) blank_nil blank_space (ih depth) blank_nil
    simpa [Form.pretty, prettyFields] using hspells
  | @fields _ name _ _ _ v _ _ fs _ _ _ _ _ _ _ hmore ih ihmore =>
    have hspells := Spells.fields (blank_indent depth) (quoted_quote name) blank_nil blank_space (ih depth) blank_nil
      (ihmore depth)
    cases fs with
    | nil => cases hmore
    | cons f fs => simpa [Form.pretty, prettyFields] using hspells

theorem exists_spelling_bool (b : Bool) : ∃ cs, Spells (.value (bool b)) cs := by
  cases b with
  | false => exact ⟨_, .no⟩
  | true => exact ⟨_, .yes⟩

/-- A record can be written if its values can. -/
theorem exists_spelling_record {fields : List (String × Json)}
    (h : ∀ field ∈ fields, ∃ cs, Spells (.value field.2) cs) : ∃ cs, Spells (.value (record fields)) cs := by
  have hfields (field : String × Json) (rest : List (String × Json))
      (h : ∀ f ∈ field :: rest, ∃ cs, Spells (.value f.2) cs) :
      ∃ cs, Spells (.fields ((field :: rest).map fun field => (some field.1, field.2))) cs := by
    induction rest generalizing field with
    | nil =>
      obtain ⟨cs, hcs⟩ := h field List.mem_cons_self
      have hspells := Spells.field blank_nil (quoted_quote field.1.toList) blank_nil blank_nil hcs blank_nil
      rw [String.ofList_toList] at hspells
      exact ⟨_, hspells⟩
    | cons next rest ih =>
      obtain ⟨cs, hcs⟩ := h field List.mem_cons_self
      obtain ⟨more, hmore⟩ := ih next fun f hf => h f (List.mem_cons_of_mem _ hf)
      have hspells := Spells.fields blank_nil (quoted_quote field.1.toList) blank_nil blank_nil hcs blank_nil hmore
      rw [String.ofList_toList] at hspells
      exact ⟨_, hspells⟩
  cases fields with
  | nil => exact ⟨_, .emptyObject blank_nil⟩
  | cons field rest =>
    obtain ⟨cs, hcs⟩ := hfields field rest h
    exact ⟨_, .object hcs⟩

/-- What the printer writes is read back. -/
theorem document_pretty {v : Json} {cs : List Char} (h : Spells (.value v) cs) : Document v (pretty 0 v) := by
  have hdocument := Document.mk blank_nil (h.pretty 0) blank_nil
  rwa [List.append_nil] at hdocument

/-! ## Counts -/

theorem whole_toDigits (n : Nat) : Whole (Nat.toDigits 10 n) := by
  by_cases hzero : n = 0
  · rw [hzero]
    exact .zero
  refine .digits ⟨?_, fun c hc => Nat.isDigit_of_mem_toDigits (by decide) (by decide) hc⟩ ?_
  · exact List.ne_nil_of_length_pos Nat.length_toDigits_pos
  · induction n using Nat.strongRecOn with
    | _ n ih =>
      rw [Nat.toDigits_eq_if (by decide)]
      split
      · next hlt =>
        have hdigit : ∀ k < 10, k ≠ 0 → [k.digitChar].head? ≠ some '0' := by decide
        exact hdigit n hlt hzero
      · next hge =>
        have hhead := ih (n / 10) (by omega) (by omega)
        obtain ⟨c, cs, hcs⟩ := List.exists_cons_of_length_pos (Nat.length_toDigits_pos (b := 10) (n := n / 10))
        rw [hcs] at hhead ⊢
        exact hhead

theorem spells_ofNat (n : Nat) : Spells (.value (ofNat n)) (Nat.toDigits 10 n) := by
  have hunsigned : Unsigned (Nat.toDigits 10 n ++ [] ++ []) := .mk (whole_toDigits n) .none .none
  rw [List.append_nil, List.append_nil] at hunsigned
  have hspells := Spells.number (.plain hunsigned)
  have hrepr : String.ofList (Nat.toDigits 10 n) = n.repr := by rw [← Nat.toList_repr, String.ofList_toList]
  rwa [hrepr] at hspells

theorem count?_ofNat (n : UInt64) : count? (ofNat n.toNat) = some n := by
  have hvalue : Nat.ofDigitChars 10 (Nat.toDigits 10 n.toNat) 0 = n.toNat :=
    Nat.ofDigitChars_toDigits (by decide) (by decide)
  have hdigits : (Nat.toDigits 10 n.toNat).all Char.isDigit = true :=
    List.all_eq_true.2 fun c hc => Nat.isDigit_of_mem_toDigits (by decide) (by decide) hc
  unfold count? ofNat
  dsimp only
  rw [Nat.toList_repr]
  have hfold : (Nat.toDigits 10 n.toNat).foldl (fun n c => 10 * n + (c.toNat - 48)) 0 = n.toNat := hvalue
  rw [hfold, if_pos ⟨hdigits, n.toNat_lt⟩, UInt64.ofNat_toNat]

end RoundLedger.Json
