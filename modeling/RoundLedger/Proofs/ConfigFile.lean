import RoundLedger.Config
import RoundLedger.Proofs.Printing

/-!
# Configuration files

A file may leave fields out, write them in any order and hold others beside them. Whatever its blanks and escapes
are, reading it gives the values that are written and the defaults for the rest, unless one of the counts that are
checked is zero. What is saved is such a file.
-/

namespace RoundLedger

/-- The content of a file with this text. -/
def Bytes.ofText (text : String) : Bytes := text.toUTF8.data.toList

theorem fromUTF8?_ofText (text : String) : String.fromUTF8? ⟨(Bytes.ofText text).toArray⟩ = some text := by
  have hbytes : (⟨(Bytes.ofText text).toArray⟩ : ByteArray) = text.toByteArray := rfl
  rw [hbytes, String.fromUTF8?, dif_pos text.isValidUTF8]
  rfl

namespace Json

/-- Those of the known fields that have a value. -/
def present : List (String × Option Json) → List (String × Json)
  | [] => []
  | (_, none) :: rest => present rest
  | (name, some v) :: rest => (name, v) :: present rest

/-- The fields are those that are known and present, and others with other names, in any order. -/
def Holds (known : List (String × Option Json)) (fields : List (String × Json)) : Prop :=
  ∃ others : List (String × Json), (∀ field ∈ others, field.1 ∉ known.map (·.1)) ∧
    fields.Perm (present known ++ others)

section

variable {known : List (String × Option Json)} {fields : List (String × Json)} {name : String}
  {value : Option Json}

theorem filter_of_notMem (h : ∀ field ∈ fields, field.1 ≠ name) :
    fields.filter (fun field => field.1 = name) = [] := by
  rw [List.filter_eq_nil_iff]
  intro field hfield
  rw [decide_eq_true_eq]
  exact h field hfield

theorem mem_known_of_present {field : String × Json} (h : field ∈ present known) : field.1 ∈ known.map (·.1) := by
  induction known with
  | nil => exact absurd h List.not_mem_nil
  | cons first rest ih =>
    obtain ⟨title, written⟩ := first
    cases written with
    | none => exact List.mem_cons_of_mem _ (ih h)
    | some v =>
      rcases List.mem_cons.1 h with rfl | hrest
      · exact List.mem_cons_self
      · exact List.mem_cons_of_mem _ (ih hrest)

theorem filter_present (hnames : (known.map (·.1)).Nodup) (h : (name, value) ∈ known) :
    (present known).filter (fun field => field.1 = name) = value.toList.map fun v => (name, v) := by
  induction known with
  | nil => exact absurd h List.not_mem_nil
  | cons first rest ih =>
    obtain ⟨title, written⟩ := first
    rw [List.map_cons, List.nodup_cons] at hnames
    rcases List.mem_cons.1 h with heq | hrest
    · cases heq
      have hothers : (present rest).filter (fun field => field.1 = name) = [] :=
        filter_of_notMem fun field hfield hname => hnames.1 (hname ▸ mem_known_of_present hfield)
      cases value with
      | none => exact hothers
      | some v =>
        rw [present, List.filter_cons, if_pos (decide_eq_true rfl), hothers]
        rfl
    · have hmem : name ∈ rest.map (·.1) := List.mem_map.2 ⟨_, hrest, rfl⟩
      have hne : title ≠ name := fun hname => hnames.1 (hname ▸ hmem)
      cases written with
      | none => exact ih hnames.2 hrest
      | some v =>
        rw [present, List.filter_cons_of_neg (by simpa using hne)]
        exact ih hnames.2 hrest

theorem Holds.uniqueField (h : Holds known fields) (hnames : (known.map (·.1)).Nodup)
    (hmem : (name, value) ∈ known) :
    uniqueField (fields.map fun (name, value) => (some name, value)) name = some value := by
  obtain ⟨others, hothers, hperm⟩ := h
  have hnone : others.filter (fun field => field.1 = name) = [] :=
    filter_of_notMem fun field hfield hname => hothers field hfield (hname ▸ List.mem_map_of_mem hmem)
  have hfound := hperm.filter (fun field => field.1 = name)
  rw [List.filter_append, filter_present hnames hmem, hnone, List.append_nil] at hfound
  have hsome : (fields.map fun (name, value) => (some name, value)).filter (fun field => field.1 = some name)
      = (fields.filter fun field => field.1 = name).map fun (name, value) => (some name, value) := by
    rw [List.filter_map]
    congr 1
    exact List.filter_congr fun field _ => by simp
  unfold Json.uniqueField
  rw [hsome]
  cases value with
  | none => rw [List.Perm.eq_nil hfound]; rfl
  | some v => rw [List.perm_singleton.1 hfound]; rfl

theorem named_record (fields : List (String × Json)) :
    (fields.map fun (name, value) => (some name, value)).all (fun field => field.1.isSome) = true := by
  rw [List.all_eq_true]
  intro field hfield
  obtain ⟨_, _, rfl⟩ := List.mem_map.1 hfield
  rfl

end

end Json

namespace EngineConfig

/-! ## Reading fields -/

section

variable {known : List (String × Option Json)} {fields : List (String × Json)} {name : String}
  {value : Option Json} {α : Type} {read : Json → Option α} {default a : α}

theorem field_of_holds (h : Json.Holds known fields) (hnames : (known.map (·.1)).Nodup)
    (hmem : (name, value) ∈ known) (hread : value.elim (some default) read = some a) :
    field (fields.map fun (name, value) => (some name, value)) name read default = some a := by
  unfold field
  rw [h.uniqueField hnames hmem]
  cases value with
  | none => exact hread
  | some v => exact hread

end

/-- What a file says: the fields that are written. A policy may be written without its only field. -/
structure Written where
  rounds : Option UInt64 := none
  batch : Option UInt64 := none
  workers : Option UInt64 := none
  collectedCapacity : Option UInt64 := none
  slots : Option UInt64 := none
  policy : Option (Option Bool) := none

namespace Written

/-- The values that are written, and the defaults for the rest. -/
def config (w : Written) : EngineConfig :=
  let defaults : EngineConfig := {}
  { rounds := w.rounds.getD defaults.rounds
    batch := w.batch.getD defaults.batch
    workers := w.workers.getD defaults.workers
    collectedCapacity := w.collectedCapacity.getD defaults.collectedCapacity
    slots := w.slots.getD defaults.slots
    policy := { smoothing := (w.policy.getD none).getD defaults.policy.smoothing } }

def count (n : UInt64) : Json := .ofNat n.toNat

/-- How a policy is written. -/
def PolicyIn : Option (Option Bool) → Option Json → Prop
  | none, none => True
  | some smoothing, some v => ∃ fields, v = .record fields ∧ Json.Holds [("smoothing", smoothing.map .bool)] fields
  | _, _ => False

def known (w : Written) (policy : Option Json) : List (String × Option Json) :=
  [("exe_round_count", w.rounds.map count), ("runner_count", w.batch.map count),
    ("parallel_num", w.workers.map count), ("default_tx_list_cap", w.collectedCapacity.map count),
    ("adhoc_runner_count", w.slots.map count), ("gas_policy", policy)]

/-- The fields of an object that says this. -/
def In (w : Written) (fields : List (String × Json)) : Prop :=
  ∃ policy, PolicyIn w.policy policy ∧ Json.Holds (w.known policy) fields

variable {w : Written} {fields : List (String × Json)}

theorem elim_count (n : Option UInt64) (default : UInt64) :
    (n.map count).elim (some default) Json.count? = some (n.getD default) := by
  cases n with
  | none => rfl
  | some n => exact Json.count?_ofNat n

theorem readPolicy_record {smoothing : Option Bool}
    (h : Json.Holds [("smoothing", smoothing.map .bool)] fields) :
    readPolicy (.record fields) = some { smoothing := smoothing.getD false } := by
  have hfield : field (fields.map fun (name, value) => (some name, value)) "smoothing" Json.bool? false
      = some (smoothing.getD false) := by
    refine field_of_holds h (List.nodup_cons.2 ⟨List.not_mem_nil, List.nodup_nil⟩) List.mem_cons_self ?_
    cases smoothing <;> rfl
  unfold readPolicy Json.record
  dsimp only
  rw [Json.named_record, hfield]
  rfl

theorem elim_policy {written : Option (Option Bool)} {policy : Option Json} (h : PolicyIn written policy) :
    policy.elim (some {}) readPolicy = some { smoothing := (written.getD none).getD false } := by
  cases written with
  | none =>
    cases policy with
    | none => rfl
    | some v => exact h.elim
  | some smoothing =>
    cases policy with
    | none => exact h.elim
    | some v =>
      obtain ⟨fields, rfl, hholds⟩ := h
      exact readPolicy_record hholds

theorem ofJson?_record (h : w.In fields) : ofJson? (.record fields) = some w.config := by
  obtain ⟨policy, hpolicy, hholds⟩ := h
  have hnames : ((w.known policy).map (·.1)).Nodup := by
    change (["exe_round_count", "runner_count", "parallel_num", "default_tx_list_cap", "adhoc_runner_count",
      "gas_policy"] : List String).Nodup
    decide
  have hcount {name : String} {n : Option UInt64} (default : UInt64) (hmem : (name, n.map count) ∈ w.known policy) :
      field (fields.map fun (name, value) => (some name, value)) name Json.count? default
        = some (n.getD default) :=
    field_of_holds hholds hnames hmem (elim_count n default)
  have hgas : field (fields.map fun (name, value) => (some name, value)) "gas_policy" readPolicy {}
      = some { smoothing := (w.policy.getD none).getD false } :=
    field_of_holds hholds hnames (by simp [known]) (elim_policy hpolicy)
  unfold ofJson? Json.record
  dsimp only
  rw [Json.named_record, hcount 10 (n := w.rounds) (by simp [known]), hcount 100 (n := w.batch) (by simp [known]),
    hcount 32 (n := w.workers) (by simp [known]), hcount 100 (n := w.collectedCapacity) (by simp [known]),
    hcount 256 (n := w.slots) (by simp [known]), hgas]
  rfl

end Written

/-! ## Checking -/

/-- The counts that are checked, in order. -/
def counts (c : EngineConfig) : List (String × UInt64) :=
  [("exe_round_count", c.rounds), ("runner_count", c.batch), ("parallel_num", c.workers),
    ("adhoc_runner_count", c.slots)]

/-- The configuration, unless one of these counts is zero. The first one that is zero is reported. -/
def checked (c : EngineConfig) : Except ConfigError EngineConfig :=
  match c.counts.find? fun count => count.2 = 0 with
  | none => .ok c
  | some count => .error (.invalidValue count.1 "must be at least 1")

theorem forM_atLeastOne (counts : List (String × UInt64)) :
    counts.forM (fun count => atLeastOne count.1 count.2) = match counts.find? fun count => count.2 = 0 with
      | none => .ok ()
      | some count => .error (.invalidValue count.1 "must be at least 1") := by
  induction counts with
  | nil => rfl
  | cons count rest ih =>
    change (do atLeastOne count.1 count.2; rest.forM fun count => atLeastOne count.1 count.2) = _
    rw [List.find?_cons, ih, atLeastOne]
    by_cases hzero : count.2 = 0
    · rw [if_pos hzero, decide_eq_true hzero]
      rfl
    · rw [if_neg hzero, decide_eq_false hzero]
      rfl

theorem validate_eq (c : EngineConfig) : c.validate = c.counts.forM fun count => atLeastOne count.1 count.2 := by
  have hlast (step : Except ConfigError Unit) : step = (do step; pure ()) := by cases step <;> rfl
  unfold validate
  rw [hlast (atLeastOne "adhoc_runner_count" c.slots)]
  rfl

theorem load_document {v : Json} {c : EngineConfig} {text : List Char} (h : Json.Document v text)
    (hread : ofJson? v = some c) : load (some (Bytes.ofText (String.ofList text))) = c.checked := by
  have hparse : parse (String.ofList text) = c.checked := by
    unfold parse checked
    rw [String.toList_ofList, Json.parse?_of_document h, Option.bind_some, hread]
    dsimp only
    rw [validate_eq, forM_atLeastOne]
    cases c.counts.find? fun count => count.2 = 0 <;> rfl
  unfold load
  rw [Option.bind_some, fromUTF8?_ofText]
  exact hparse

/-! ## Saved files -/

/-- Everything is written. -/
def written (c : EngineConfig) : Written where
  rounds := some c.rounds
  batch := some c.batch
  workers := some c.workers
  collectedCapacity := some c.collectedCapacity
  slots := some c.slots
  policy := some (some c.policy.smoothing)

theorem config_written (c : EngineConfig) : c.written.config = c := rfl

theorem ofJson?_json (c : EngineConfig) : ofJson? c.json = some c := by
  have hpolicy : Json.Holds [("smoothing", some (.bool c.policy.smoothing))]
      [("smoothing", .bool c.policy.smoothing)] := ⟨[], by simp, .refl _⟩
  have hin : c.written.In [("exe_round_count", .ofNat c.rounds.toNat), ("runner_count", .ofNat c.batch.toNat),
      ("parallel_num", .ofNat c.workers.toNat), ("default_tx_list_cap", .ofNat c.collectedCapacity.toNat),
      ("adhoc_runner_count", .ofNat c.slots.toNat),
      ("gas_policy", .record [("smoothing", .bool c.policy.smoothing)])] :=
    ⟨some (.record [("smoothing", .bool c.policy.smoothing)]), ⟨_, rfl, hpolicy⟩, [], by simp, .refl _⟩
  exact (Written.ofJson?_record hin).trans (congrArg some (config_written c))

theorem exists_spelling_json (c : EngineConfig) : ∃ cs, Json.Spells (.value c.json) cs := by
  refine Json.exists_spelling_record fun field hfield => ?_
  have hpolicy : ∃ cs, Json.Spells (.value (.record [("smoothing", .bool c.policy.smoothing)])) cs :=
    Json.exists_spelling_record fun field hfield => by
      rw [List.mem_singleton.1 hfield]
      exact Json.exists_spelling_bool _
  simp only [List.mem_cons, List.not_mem_nil, or_false] at hfield
  rcases hfield with rfl | rfl | rfl | rfl | rfl | rfl
  · exact ⟨_, Json.spells_ofNat _⟩
  · exact ⟨_, Json.spells_ofNat _⟩
  · exact ⟨_, Json.spells_ofNat _⟩
  · exact ⟨_, Json.spells_ofNat _⟩
  · exact ⟨_, Json.spells_ofNat _⟩
  · exact hpolicy

/-- A file that was saved is read as the configuration that was saved. Of any other file that holds an object, the
known fields that are written have their values and the rest their defaults; the order does not matter, nor what
else is in the object. In both cases the first of the four checked counts that is zero is reported. -/
theorem load_restores :
    (∀ c : EngineConfig, load (some (Bytes.ofText c.save)) = c.checked) ∧
      ∀ (w : Written) (fields : List (String × Json)) (text : List Char), w.In fields →
        Json.Document (.record fields) text → load (some (Bytes.ofText (String.ofList text))) = w.config.checked := by
  refine ⟨fun c => ?_, fun w fields text hin htext => load_document htext (Written.ofJson?_record hin)⟩
  obtain ⟨cs, hspells⟩ := exists_spelling_json c
  exact load_document (Json.document_pretty hspells) (ofJson?_json c)

/-- Two of the six fields and another one. -/
def sparse : List (String × Json) :=
  [("note", .null), ("gas_policy", .record [("smoothing", .bool true)]), ("runner_count", .ofNat 4)]

def sparseText : String :=
  "\x7b\n  \"note\": null,\n  \"gas_policy\": \x7b\n    \"smoothing\": true\n  \x7d,\n  \"runner_count\": 4\n\x7d"

theorem sparse_restored :
    load (some (Bytes.ofText sparseText)) = .ok { batch := 4, policy := { smoothing := true } } ∧
      load (some (Bytes.ofText (save { batch := 0, workers := 0 })))
        = .error (.invalidValue "runner_count" "must be at least 1") := by
  obtain ⟨hsaved, hwritten⟩ := load_restores
  refine ⟨?_, hsaved { batch := 0, workers := 0 }⟩
  have hin : ({ batch := some 4, policy := some (some true) } : Written).In sparse :=
    ⟨some (.record [("smoothing", .bool true)]), ⟨_, rfl, [], by simp, .refl _⟩, [("note", .null)], by decide,
      .trans (.cons _ (.swap _ _ _)) (.trans (.swap _ _ _) (.cons _ (.swap _ _ _)))⟩
  have hspells : ∃ cs, Json.Spells (.value (.record sparse)) cs := by
    refine Json.exists_spelling_record fun field hfield => ?_
    simp only [sparse, List.mem_cons, List.not_mem_nil, or_false] at hfield
    rcases hfield with rfl | rfl | rfl
    · exact ⟨_, .null⟩
    · exact Json.exists_spelling_record fun field hfield => by
        rw [List.mem_singleton.1 hfield]
        exact Json.exists_spelling_bool _
    · exact ⟨_, Json.spells_ofNat _⟩
  obtain ⟨cs, hcs⟩ := hspells
  have hload := hwritten _ _ _ hin (Json.document_pretty hcs)
  have htext : String.ofList (Json.pretty 0 (.record sparse)) = sparseText := by decide +kernel
  rw [htext] at hload
  exact hload

end EngineConfig

end RoundLedger
