import Mathlib.Algebra.GroupWithZero.Nat
import Mathlib.Logic.Function.Iterate
import RoundLedger.Contract
import RoundLedger.Precompile.Istanbul

/-!
# Metering

A native contract and a system contract name their price, and a standard precompile has one: the limit from
which on it does not run out of gas. In each case a dispatch asks for the price before anything else, and
takes neither more nor less than it, whatever the run comes to. For a rejected input nothing but the search
for the least limit says what the price is.
-/

namespace RoundLedger

open Program

/-! ## The search -/

/-- The search finds the price, if it lies in the range. -/
theorem leastLimit_of_price {outOfGas : Nat → Bool} {price low high : Nat}
    (hprice : ∀ limit ≤ high, outOfGas limit = decide (limit < price))
    (hlow : low ≤ price) (hhigh : price ≤ high) : leastLimit outOfGas low high = price := by
  fun_induction leastLimit with
  | case1 low high hlt middle hout ih =>
    rw [hprice middle (by omega), decide_eq_true_eq] at hout
    exact ih hprice (by omega) hhigh
  | case2 low high hlt middle henough ih =>
    rw [hprice middle (by omega), decide_eq_true_eq] at henough
    exact ih (fun limit hlimit => hprice limit (by omega)) hlow (by omega)
  | case3 low high hdone => omega

/-! ### On machine words -/

section Words

variable (outOfGas : UInt64 → Bool)

/-- One turn of the search on counts of 64 bits. -/
def narrow : UInt64 × UInt64 → UInt64 × UInt64
  | (low, high) =>
    if low < high then
      let middle := low + (high - low) / 2
      if outOfGas middle then (middle + 1, high) else (low, middle)
    else (low, high)

/-- A range that the search comes to from another one: it holds the same least limit. -/
structure Narrowed (before after : UInt64 × UInt64) : Prop where
  ordered : after.1 ≤ after.2
  within : after.2 ≤ before.2
  least : leastLimit (fun limit => outOfGas (UInt64.ofNat limit)) after.1.toNat after.2.toNat
    = leastLimit (fun limit => outOfGas (UInt64.ofNat limit)) before.1.toNat before.2.toNat

variable {outOfGas} {range : UInt64 × UInt64}

/-- No sum of a turn passes the largest count, and the range is cut in half. -/
theorem narrow_narrowed (h : range.1 ≤ range.2) :
    Narrowed outOfGas range (narrow outOfGas range) ∧
      (narrow outOfGas range).2.toNat - (narrow outOfGas range).1.toNat ≤ (range.2.toNat - range.1.toNat) / 2 := by
  obtain ⟨low, high⟩ := range
  rw [UInt64.le_iff_toNat_le] at h
  dsimp only at h
  by_cases hlt : low < high
  · have hlt' := UInt64.lt_iff_toNat_lt.1 hlt
    have hbound := high.toNat_lt
    have hone : (1 : UInt64).toNat = 1 := rfl
    have hhalf : ((high - low) / 2).toNat = (high.toNat - low.toNat) / 2 := by
      rw [UInt64.toNat_div, UInt64.toNat_sub_of_le _ _ (UInt64.le_of_lt hlt)]
      rfl
    have hmiddle : (low + (high - low) / 2).toNat = low.toNat + (high.toNat - low.toNat) / 2 := by
      rw [UInt64.toNat_add, hhalf]
      omega
    have hnext : (low + (high - low) / 2 + 1).toNat = low.toNat + (high.toNat - low.toNat) / 2 + 1 := by
      rw [UInt64.toNat_add, hmiddle]
      omega
    have hturn : leastLimit (fun limit => outOfGas (UInt64.ofNat limit)) low.toNat high.toNat
        = if outOfGas (low + (high - low) / 2) then
            leastLimit (fun limit => outOfGas (UInt64.ofNat limit)) (low + (high - low) / 2 + 1).toNat high.toNat
          else leastLimit (fun limit => outOfGas (UInt64.ofNat limit)) low.toNat (low + (high - low) / 2).toNat := by
      rw [leastLimit, if_pos hlt', hnext, hmiddle]
      dsimp only
      rw [← hmiddle, UInt64.ofNat_toNat]
    rw [narrow, if_pos hlt]
    dsimp only
    split
    next hout =>
      rw [if_pos hout] at hturn
      refine ⟨⟨?_, UInt64.le_refl _, hturn.symm⟩, ?_⟩
      · rw [UInt64.le_iff_toNat_le]
        dsimp only
        omega
      · dsimp only
        omega
    next henough =>
      rw [if_neg henough] at hturn
      refine ⟨⟨?_, ?_, hturn.symm⟩, ?_⟩
      · rw [UInt64.le_iff_toNat_le]
        dsimp only
        omega
      · rw [UInt64.le_iff_toNat_le]
        dsimp only
        omega
      · dsimp only
        omega
  · rw [narrow, if_neg hlt]
    rw [UInt64.lt_iff_toNat_lt] at hlt
    refine ⟨⟨UInt64.le_iff_toNat_le.2 h, UInt64.le_refl _, rfl⟩, ?_⟩
    dsimp only
    omega

variable (outOfGas) in
theorem narrow_iterate (h : range.1 ≤ range.2) (turns : Nat) :
    Narrowed outOfGas range ((narrow outOfGas)^[turns] range) ∧
      ((narrow outOfGas)^[turns] range).2.toNat - ((narrow outOfGas)^[turns] range).1.toNat
        ≤ (range.2.toNat - range.1.toNat) / 2 ^ turns := by
  induction turns with
  | zero => exact ⟨⟨h, UInt64.le_refl _, rfl⟩, by simp⟩
  | succ turns ih =>
    obtain ⟨hrun, hwidth⟩ := ih
    obtain ⟨hturn, hhalf⟩ := narrow_narrowed hrun.ordered
    rw [Function.iterate_succ_apply']
    refine ⟨⟨hturn.ordered, UInt64.le_trans hturn.within hrun.within, hturn.least.trans hrun.least⟩,
      Nat.le_trans hhalf ?_⟩
    rw [Nat.pow_succ, ← Nat.div_div_eq_div_mul]
    exact Nat.div_le_div_right hwidth

/-- Whatever the predicate, 64 turns leave one limit, the one that `leastLimit` finds. -/
theorem narrow_ends (outOfGas : UInt64 → Bool) (gas : UInt64) :
    ∃ found : UInt64, (narrow outOfGas)^[64] (0, gas) = (found, found) ∧ found ≤ gas ∧
      found.toNat = leastLimit (fun limit => outOfGas (UInt64.ofNat limit)) 0 gas.toNat := by
  have hstart : ((0, gas) : UInt64 × UInt64).1 ≤ (0, gas).2 := UInt64.zero_le
  obtain ⟨hrun, hwidth⟩ := narrow_iterate outOfGas hstart 64
  generalize (narrow outOfGas)^[64] (0, gas) = after at hrun hwidth
  obtain ⟨low, high⟩ := after
  have hordered := UInt64.le_iff_toNat_le.1 hrun.ordered
  have hbound := gas.toNat_lt
  dsimp only at hwidth hordered
  have hmet : low = high := UInt64.toNat_inj.1 (by omega)
  subst hmet
  refine ⟨low, rfl, hrun.within, ?_⟩
  have hleast := hrun.least
  dsimp only at hleast
  rw [leastLimit, if_neg (Nat.lt_irrefl _)] at hleast
  exact hleast

end Words

/-! ## Prices -/

/-- What a standard precompile answers when the price is paid: an output, a rejection of the input, or a fault. -/
abbrev Verdict := Except Fault (Option Bytes)

namespace StandardResult

/-- The answer that a verdict comes to at a price. -/
def of (price : Nat) : Verdict → StandardResult
  | .ok (some output) => .returned (UInt64.ofNat price) output
  | .ok none => .rejected
  | .error fault => .stopped fault

theorem isOutOfGas_of (price : Nat) (verdict : Verdict) : (of price verdict).isOutOfGas = false := by
  unfold of
  split <;> rfl

end StandardResult

namespace StandardPrecompile

/-- For this input the precompile runs out of gas at each limit below the price, and gives one answer from the
price on. -/
structure PricedAt (run : StandardPrecompile) (input : Bytes) (price : Nat) (verdict : Verdict) : Prop where
  short : ∀ limit : UInt64, limit.toNat < price → run input limit = .outOfGas
  paid : ∀ limit : UInt64, price ≤ limit.toNat → run input limit = .of price verdict

def Metered (run : StandardPrecompile) : Prop := ∀ input, ∃ price verdict, run.PricedAt input price verdict

variable {run : StandardPrecompile} {input : Bytes} {price : Nat} {verdict : Verdict}

theorem PricedAt.isOutOfGas (priced : run.PricedAt input price verdict) (limit : UInt64) :
    (run input limit).isOutOfGas = decide (limit.toNat < price) := by
  obtain hshort | hpaid := Nat.lt_or_ge limit.toNat price
  · rw [priced.short limit hshort, decide_eq_true hshort]
    rfl
  · rw [priced.paid limit hpaid, StandardResult.isOutOfGas_of, decide_eq_false (Nat.not_lt.2 hpaid)]

/-- The search comes to the price at each limit that covers it. -/
theorem PricedAt.leastLimit_eq (priced : run.PricedAt input price verdict) {gas : UInt64}
    (hpaid : price ≤ gas.toNat) :
    leastLimit (fun limit => (run input (UInt64.ofNat limit)).isOutOfGas) 0 gas.toNat = price := by
  refine leastLimit_of_price (fun limit hlimit => ?_) (Nat.zero_le _) hpaid
  rw [priced.isOutOfGas, UInt64.toNat_ofNat_of_lt' (Nat.lt_of_le_of_lt hlimit gas.toNat_lt)]

theorem priced_of_limit {price limit : UInt64} {answer : Unit → Option Bytes} :
    priced price limit answer = if limit < price then .outOfGas else .of price.toNat (.ok (answer ())) := by
  unfold priced StandardResult.of
  rw [UInt64.ofNat_toNat]
  split
  · rfl
  · split <;> simp [*]

end StandardPrecompile

/-! ## Dispatches -/

namespace PrecompileCall

/-- A call that has paid the price out of some gas, and shows the answer of what then ran. -/
structure Charged (call : PrecompileCall) (price : Nat) (gas : UInt64) (answer : Option Bytes) : Prop where
  enough : call.isOutOfGas = false
  gasLeft : call.gasLeft.toNat + price = gas.toNat
  success : call.isSuccess = answer.isSome
  kept : call.output.kept = (answer.getD []).take 256
  fullLength : call.output.fullLength = (answer.getD []).length

/-- The call that an answer comes to when this gas is left. -/
def finish (left : UInt64) : Option Bytes → PrecompileCall
  | some output => returned left (.truncating output)
  | none => failed left

theorem ofResult_eq (left : UInt64) (result : Except ExecutionError Bytes) :
    ofResult left result = finish left result.toOption := by
  cases result <;> rfl

theorem finish_charged {price : Nat} {gas : UInt64} (hpaid : price ≤ gas.toNat) (answer : Option Bytes) :
    (finish (gas - UInt64.ofNat price) answer).Charged price gas answer := by
  have hprice : (UInt64.ofNat price).toNat = price :=
    UInt64.toNat_ofNat_of_lt' (Nat.lt_of_le_of_lt hpaid gas.toNat_lt)
  have hleft : (gas - UInt64.ofNat price).toNat + price = gas.toNat := by
    rw [UInt64.toNat_sub_of_le _ _ (UInt64.le_iff_toNat_le.2 (Nat.le_trans (Nat.le_of_eq hprice) hpaid)), hprice]
    omega
  cases answer with
  | some output => exact ⟨rfl, hleft, rfl, rfl, rfl⟩
  | none => exact ⟨rfl, hleft, rfl, rfl, rfl⟩

end PrecompileCall

/-- A dispatch that asks for its price before it runs anything: less gas than the price is lost, and all other
gas pays the price and no more for whatever the run answers. -/
structure Dispatches (dispatch : UInt64 → Program (Option PrecompileCall)) (price : Nat)
    (run : Program (Option Bytes)) : Prop where
  short : ∀ gas : UInt64, gas.toNat < price → dispatch gas = pure (some .outOfGas)
  paid : ∀ gas : UInt64, price ≤ gas.toNat → ∃ finish : Option Bytes → PrecompileCall,
    (∀ answer, (finish answer).Charged price gas answer) ∧ dispatch gas = (some ∘ finish) <$> run

theorem Dispatches.ne_none {dispatch : UInt64 → Program (Option PrecompileCall)} {price : Nat}
    {run : Program (Option Bytes)} (h : Dispatches dispatch price run) (gas : UInt64) :
    dispatch gas ≠ pure none := by
  intro hnone
  obtain hshort | hpaid := Nat.lt_or_ge gas.toNat price
  · rw [h.short gas hshort] at hnone
    cases hnone
  · obtain ⟨finish, -, hrun⟩ := h.paid gas hpaid
    rw [hrun] at hnone
    cases run with
    | done answer => cases hnone
    | fail fault => cases hnone
    | get key next => cases hnone
    | put key value next => cases hnone

/-- A dispatch that compares its gas with a price of 64 bits. -/
theorem dispatches_of_required {required : UInt64} (run : Program (Except ExecutionError Bytes)) :
    Dispatches
      (fun gas => if gas < required then return some .outOfGas
        else return some (.ofResult (gas - required) (← run)))
      required.toNat (Except.toOption <$> run) where
  short gas hshort := if_pos (UInt64.lt_iff_toNat_lt.2 hshort)
  paid gas hpaid := by
    refine ⟨.finish (gas - UInt64.ofNat required.toNat), PrecompileCall.finish_charged hpaid, ?_⟩
    rw [if_neg (UInt64.not_lt.2 (UInt64.le_iff_toNat_le.2 hpaid)), UInt64.ofNat_toNat, ← comp_map,
      map_eq_pure_bind]
    simp only [PrecompileCall.ofResult_eq, Function.comp_apply]

namespace PrecompileTable

theorem callStandard_dispatches {run : StandardPrecompile} {input : Bytes} {price : Nat} {verdict : Verdict}
    (priced : run.PricedAt input price verdict) :
    Dispatches (fun gas => Program.ofExcept (some <$> callStandard run input gas)) price (Program.ofExcept verdict) where
  short gas hshort := by
    rw [callStandard, priced.short gas hshort]
    rfl
  paid gas hpaid := by
    refine ⟨.finish (gas - UInt64.ofNat price), PrecompileCall.finish_charged hpaid, ?_⟩
    have hprice : UInt64.ofNat price ≤ gas := by
      rw [UInt64.le_iff_toNat_le, UInt64.toNat_ofNat_of_lt' (Nat.lt_of_le_of_lt hpaid gas.toNat_lt)]
      exact hpaid
    rw [callStandard, priced.paid gas hpaid, priced.leastLimit_eq hpaid]
    match verdict with
    | .ok (some output) =>
      change Program.ofExcept (.ok (some (PrecompileCall.returned (gas.subFloor (UInt64.ofNat price)) _))) = _
      rw [UInt64.subFloor, if_pos hprice]
      rfl
    | .ok none => rfl
    | .error fault => rfl

/-- Each standard precompile has a price for each input. -/
def Metered (t : PrecompileTable) : Prop :=
  ∀ (address : Address) (run : StandardPrecompile), t.standard[address]? = some run → run.Metered

/-- The price of an input at an address, and what runs once it is paid. A native contract goes first. -/
def PricedAt (t : PrecompileTable) (address : Address) (input : Bytes) (price : Nat)
    (run : Program (Option Bytes)) : Prop :=
  match t.natives[address]? with
  | some native => price = (native.requiredGas input).toNat ∧ run = pure (native.run input).toOption
  | none => ∃ standard verdict, t.standard[address]? = some standard ∧
      standard.PricedAt input price verdict ∧ run = Program.ofExcept verdict

variable {t : PrecompileTable} {address : Address} {input : Bytes}

theorem call_native {native : NativeContract} (h : t.natives[address]? = some native) (gas : UInt64) :
    t.call address input gas = .ok (some (.charge (native.requiredGas input) gas fun _ => native.run input)) := by
  rw [call, h]

theorem call_standard {run : StandardPrecompile} (hnative : t.natives[address]? = none)
    (h : t.standard[address]? = some run) (gas : UInt64) :
    t.call address input gas = some <$> callStandard run input gas := by
  rw [call, hnative]
  dsimp only
  rw [h]

theorem call_absent (hnative : t.natives[address]? = none) (h : t.standard[address]? = none) (gas : UInt64) :
    t.call address input gas = .ok none := by
  rw [call, hnative]
  dsimp only
  rw [h]

theorem PricedAt.dispatches {price : Nat} {run : Program (Option Bytes)}
    (priced : t.PricedAt address input price run) :
    Dispatches (fun gas => Program.ofExcept (t.call address input gas)) price run := by
  unfold PricedAt at priced
  split at priced
  next native hnative =>
    obtain ⟨rfl, rfl⟩ := priced
    have hcall : (fun gas => Program.ofExcept (t.call address input gas))
        = fun gas => if gas < native.requiredGas input then return some .outOfGas
          else return some (.ofResult (gas - native.requiredGas input) (← pure (native.run input))) := by
      funext gas
      rw [call_native hnative, PrecompileCall.charge]
      split <;> rfl
    rw [hcall]
    exact dispatches_of_required (pure (native.run input))
  next hnative =>
    obtain ⟨standard, verdict, hstandard, hpriced, rfl⟩ := priced
    simp only [call_standard hnative hstandard]
    exact callStandard_dispatches hpriced

theorem contains_eq (t : PrecompileTable) (address : Address) :
    t.contains address = (t.natives[address]?.isSome || t.standard[address]?.isSome) := by
  rw [contains, Std.ExtTreeMap.contains_eq_isSome_getElem?, Std.ExtTreeMap.contains_eq_isSome_getElem?]

/-- An address of the table has a price for each input. -/
theorem Metered.priced (metered : t.Metered) (h : t.contains address = true) (input : Bytes) :
    ∃ price run, t.PricedAt address input price run := by
  unfold PricedAt
  rw [contains_eq] at h
  cases hnative : t.natives[address]? with
  | some native => exact ⟨_, _, rfl, rfl⟩
  | none =>
    cases hstandard : t.standard[address]? with
    | some standard =>
      obtain ⟨price, verdict, hpriced⟩ := metered address standard hstandard input
      exact ⟨price, _, standard, verdict, rfl, hpriced, rfl⟩
    | none =>
      rw [hnative, hstandard] at h
      cases h

theorem call_eq_none_iff (metered : t.Metered) (gas : UInt64) :
    t.call address input gas = .ok none ↔ t.contains address = false := by
  constructor
  · intro hnone
    rw [← Bool.not_eq_true]
    intro hcontains
    obtain ⟨price, run, hpriced⟩ := metered.priced hcontains input
    refine hpriced.dispatches.ne_none gas ?_
    rw [hnone]
    rfl
  · intro habsent
    rw [contains_eq, Bool.or_eq_false_iff, Option.isSome_eq_false_iff, Option.isSome_eq_false_iff,
      Option.isNone_iff_eq_none, Option.isNone_iff_eq_none] at habsent
    exact call_absent habsent.1 habsent.2 gas

end PrecompileTable

namespace ContractTable

variable {t : ContractTable} {address : Address} {contract : SystemContract}

theorem callAsPrecompile_dispatches (h : t[address]? = some contract) (input : Bytes) :
    Dispatches (t.callAsPrecompile address input) (contract.requiredGas input).toNat
      (Except.toOption <$> contract.run input) := by
  have hdispatch : t.callAsPrecompile address input
      = fun gas => if gas < contract.requiredGas input then return some .outOfGas
        else return some (.ofResult (gas - contract.requiredGas input) (← contract.run input)) := by
    funext gas
    rw [callAsPrecompile, h]
  rw [hdispatch]
  exact dispatches_of_required (contract.run input)

theorem callAsPrecompile_eq_none_iff (t : ContractTable) (address : Address) (input : Bytes) (gas : UInt64) :
    t.callAsPrecompile address input gas = pure none ↔ t[address]? = none := by
  cases hcontract : t[address]? with
  | none =>
    rw [callAsPrecompile, hcontract]
    exact iff_of_true rfl rfl
  | some contract =>
    exact iff_of_false ((callAsPrecompile_dispatches hcontract input).ne_none gas) nofun

end ContractTable

/-! ## The Istanbul fork -/

namespace StandardPrecompile

theorem pricedAt_of_priced {run : StandardPrecompile} {input : Bytes} {price : UInt64}
    {answer : Unit → Option Bytes} (h : ∀ limit, run input limit = priced price limit answer) :
    run.PricedAt input price.toNat (.ok (answer ())) where
  short limit hshort := by rw [h, priced_of_limit, if_pos (UInt64.lt_iff_toNat_lt.2 hshort)]
  paid limit hpaid := by
    rw [h, priced_of_limit, if_neg (UInt64.not_lt.2 (UInt64.le_iff_toNat_le.2 hpaid))]

/-- An input that is answered before the price is asked for costs nothing. -/
theorem pricedAt_zero {run : StandardPrecompile} {input : Bytes} {verdict : Verdict}
    (h : ∀ limit, run input limit = .of 0 verdict) : run.PricedAt input 0 verdict :=
  ⟨fun _ hshort => absurd hshort (Nat.not_lt_zero _), fun limit _ => h limit⟩

/-- Room that cannot be made is a fault, but only of a call that has paid. -/
theorem pricedAt_of_room {run : StandardPrecompile} {input : Bytes} {room : Except Fault Unit} {price : UInt64}
    {answer : Unit → Option Bytes}
    (h : ∀ limit, run input limit = match room with
      | .error fault => if limit < price then .outOfGas else .stopped fault
      | .ok () => priced price limit answer) :
    run.PricedAt input price.toNat (room.map answer) := by
  cases room with
  | ok _ => exact pricedAt_of_priced h
  | error fault =>
    constructor
    · intro limit hshort
      rw [h]
      exact if_pos (UInt64.lt_iff_toNat_lt.2 hshort)
    · intro limit hpaid
      rw [h]
      exact if_neg (UInt64.not_lt.2 (UInt64.le_iff_toNat_le.2 hpaid))

theorem powerMod_metered : powerMod.Metered := by
  intro input
  by_cases hlong : UInt64.size ≤ BigEndian.decode (input.window (32 * 0) 32) ∨
      UInt64.size ≤ BigEndian.decode (input.window (32 * 2) 32)
  · exact ⟨0, .ok none, pricedAt_zero fun _ => if_pos hlong⟩
  by_cases hempty : BigEndian.decode (input.window (32 * 0) 32) = 0 ∧
      BigEndian.decode (input.window (32 * 2) 32) = 0
  · exact ⟨0, .ok (some []), pricedAt_zero fun _ => (if_neg hlong).trans (if_pos hempty)⟩
  · exact ⟨_, _, pricedAt_of_room fun _ => (if_neg hlong).trans (if_neg hempty)⟩

theorem blake2_metered : blake2.Metered := by
  intro input
  by_cases hlength : input.length = 213
  · exact ⟨_, _, pricedAt_of_priced fun limit => if_pos hlength⟩
  · exact ⟨0, .ok none, pricedAt_zero fun limit => if_neg hlength⟩

theorem istanbul_metered : ∀ place ∈ istanbul, place.2.Metered := by
  simp only [istanbul, List.forall_mem_cons]
  refine ⟨?_, ?_, ?_, ?_, powerMod_metered, ?_, ?_, ?_, blake2_metered, by simp⟩ <;>
    exact fun input => ⟨_, _, pricedAt_of_priced fun _ => rfl⟩

end StandardPrecompile

theorem PrecompileTable.istanbul_metered : istanbul.Metered := fun _ _ hrun =>
  StandardPrecompile.istanbul_metered _ (mem_of_istanbul hrun)

/-! ## The charge of a dispatch -/

namespace PrecompileTable

/-- A dispatch asks for the price of the input, and takes that and no more. The table answers exactly at its
addresses, and the contracts at theirs. The search for a price ends within 64 turns whatever it is asked to look
for, and never beyond the gas it starts with. -/
theorem dispatch_charges {t : PrecompileTable} (metered : t.Metered) (contracts : ContractTable)
    (address : Address) (input : Bytes) :
    (∀ gas, t.call address input gas = .ok none ↔ t.contains address = false) ∧
      (t.contains address = true → ∃ price run, t.PricedAt address input price run ∧
        Dispatches (fun gas => Program.ofExcept (t.call address input gas)) price run) ∧
      (∀ gas, contracts.callAsPrecompile address input gas = pure none ↔ contracts[address]? = none) ∧
      (∀ contract, contracts[address]? = some contract →
        Dispatches (contracts.callAsPrecompile address input) (contract.requiredGas input).toNat
          (Except.toOption <$> contract.run input)) ∧
      ∀ (outOfGas : UInt64 → Bool) (gas : UInt64), ∃ found : UInt64,
        (narrow outOfGas)^[64] (0, gas) = (found, found) ∧ found ≤ gas ∧
          found.toNat = leastLimit (fun limit => outOfGas (UInt64.ofNat limit)) 0 gas.toNat := by
  refine ⟨call_eq_none_iff metered, fun hcontains => ?_,
    ContractTable.callAsPrecompile_eq_none_iff contracts address input,
    fun _ hcontract => ContractTable.callAsPrecompile_dispatches hcontract input, narrow_ends⟩
  obtain ⟨price, run, hpriced⟩ := metered.priced hcontains input
  exact ⟨price, run, hpriced, hpriced.dispatches⟩

/-- A sum of two points on a curve, of which the first is (1, 1), which is on none. -/
def offCurve : Bytes := Word.bytes 1 ++ Word.bytes 1 ++ Word.bytes 0 ++ Word.bytes 0

/-- The rejected input costs its price of 150. -/
theorem offCurve_charged :
    istanbul.Metered ∧ istanbul.contains 6 = true ∧
      (istanbul.call 6 offCurve 1000).toOption = some (some (.failed 850)) ∧
      ∃ price run, istanbul.PricedAt 6 offCurve price run ∧
        Dispatches (fun gas => Program.ofExcept (istanbul.call 6 offCurve gas)) price run := by
  have hcontains : istanbul.contains 6 = true := by decide +kernel
  exact ⟨istanbul_metered, hcontains, by decide +kernel,
    (dispatch_charges istanbul_metered ∅ 6 offCurve).2.1 hcontains⟩

end PrecompileTable

end RoundLedger
