import RoundLedger.Curve.Secp256k1
import RoundLedger.Precompile.Bn254
import RoundLedger.Precompile.PowerMod
import RoundLedger.Precompile.Recovery
import RoundLedger.Precompile.VrfCheck

/-!
# The precompiles of the Istanbul fork
-/

namespace RoundLedger

def StandardPrecompile.istanbul : List (Address × StandardPrecompile) :=
  [(1, recovery), (2, sha256), (3, ripemd160), (4, identity), (5, powerMod), (6, curveAdd),
    (7, curveMul), (8, pairing), (9, blake2)]

def PrecompileTable.istanbul : PrecompileTable :=
  let standard : PrecompileTable := { standard := .ofList StandardPrecompile.istanbul compare }
  standard.withNative VrfCheck.address (VrfCheck.contract Secp256k1.group)

theorem PrecompileTable.mem_of_istanbul {address : Address} {run : StandardPrecompile}
    (h : istanbul.standard[address]? = some run) : (address, run) ∈ StandardPrecompile.istanbul := by
  have distinct : StandardPrecompile.istanbul.Pairwise fun a b => ¬ compare a.1 b.1 = .eq := by
    simp [StandardPrecompile.istanbul]
  change (Std.ExtTreeMap.ofList StandardPrecompile.istanbul compare)[address]? = some run at h
  by_cases hlisted : ∃ place ∈ StandardPrecompile.istanbul, place.1 = address
  · obtain ⟨place, hplace, rfl⟩ := hlisted
    rw [Std.ExtTreeMap.getElem?_ofList_of_mem (Std.LawfulEqCmp.compare_eq_iff_eq.2 rfl) distinct hplace] at h
    cases h
    exact hplace
  · rw [Std.ExtTreeMap.getElem?_ofList_of_contains_eq_false] at h
    · cases h
    · rw [← Bool.not_eq_true, List.contains_iff_mem, List.mem_map]
      exact hlisted

end RoundLedger
