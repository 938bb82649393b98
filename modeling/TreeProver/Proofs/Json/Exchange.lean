import TreeProver.Proof.Contract
import TreeProver.Proofs.Json.RoundTrip
import TreeProver.Proofs.Spelling

/-!
# Reading back proofs and contracts

Words and coordinates are read back from their texts, and in JSON they are strings. So they are read
back from there, whatever bytes or number they are, and so are the proofs and the contracts that are
made of them.
-/

namespace TreeProver

open Json

namespace Word

/-- A word is read back from a JSON text. -/
theorem reads (w : Word) : Reads json w.toJson w := (reads_string w.format).converted w.parse_format

/-- A list of words is read back from its texts. -/
theorem mapM_parse_format (ws : List Word) :
    (ws.map fun w ↦ w.format.toList).mapM parse = .ok ws := by
  rw [Except.mapM_ok_iff, List.forall₂_map_left_iff, List.forall₂_same]
  exact fun w _ ↦ w.parse_format

/-- A list of words is read back from a JSON text. -/
theorem reads_list (ws : List Word) : Reads jsonList (.list (ws.map toJson)) ws := by
  have htexts : Reads (array string) (.list (ws.map toJson)) (ws.map fun w ↦ w.format.toList) := by
    apply reads_array
    rw [List.forall₂_map_left_iff, List.forall₂_map_right_iff, List.forall₂_same]
    exact fun w _ ↦ reads_string w.format
  exact htexts.converted (mapM_parse_format ws)

end Word

namespace Coordinate

/-- A coordinate is read back from a JSON text. -/
theorem reads (c : Coordinate) : Reads json c.toJson c :=
  (reads_string c.format).converted c.parse_format

end Coordinate

namespace CoordinatePair

/-- A pair of coordinates is read back from a JSON text. -/
theorem reads (p : CoordinatePair) : Reads json (toJson p) p := reads_pair p.1.reads p.2.reads

/-- Two pairs of coordinates are read back from a JSON text. -/
theorem reads_twice (p : CoordinatePair × CoordinatePair) : Reads jsonTwice (twiceToJson p) p :=
  reads_pair (reads p.1) (reads p.2)

end CoordinatePair

/-- A proof is read back from its JSON text. -/
theorem Proof.parse_format (p : Proof) : Proof.parse p.format = .ok p := by
  have hread : Reads Proof.json p.toJson p := by
    have hfills : Fills slots
        [("a", CoordinatePair.toJson p.a), ("b", CoordinatePair.twiceToJson p.b),
          ("c", CoordinatePair.toJson p.c), ("inputHash", p.inputHash.toJson),
          ("outputHash", p.outputHash.toJson)]
        ⟨none, none, none, none, none⟩
        ⟨some p.a, some p.b, some p.c, some p.inputHash, some p.outputHash⟩ := by
      refine .kept rfl rfl (CoordinatePair.reads p.a) ?_
      refine .kept rfl rfl (CoordinatePair.reads_twice p.b) ?_
      refine .kept rfl rfl (CoordinatePair.reads p.c) ?_
      refine .kept rfl rfl p.inputHash.reads ?_
      exact .kept rfl rfl p.outputHash.reads (.nil _)
    exact reads_record hfills rfl
  rw [Proof.parse, format, hread.parse]

namespace VerifierContract

/-- A contract is read back from its JSON text. -/
theorem parse_format (c : VerifierContract) : parse c.format = .ok c := by
  have htext : ∀ s : String, Reads text (.text s) s :=
    fun s ↦ (reads_string s).converted (by rw [String.ofList_toList])
  have hread : Reads json c.toJson c := by
    have hfills : Fills slots
        [("name", .text c.name), ("circuitId", .text c.circuitId),
          ("publicInputs", .list (c.publicInputs.map .text)),
          ("alpha", CoordinatePair.toJson c.alpha), ("beta", CoordinatePair.twiceToJson c.beta),
          ("gamma", CoordinatePair.twiceToJson c.gamma),
          ("delta", CoordinatePair.twiceToJson c.delta),
          ("ic", .list (c.inputPoints.map CoordinatePair.toJson))]
        ⟨none, none, none, none, none, none, none, none⟩
        ⟨some c.name, some c.circuitId, some c.publicInputs, some c.alpha, some c.beta,
          some c.gamma, some c.delta, some c.inputPoints⟩ := by
      refine .kept rfl rfl (htext c.name) ?_
      refine .kept rfl rfl (htext c.circuitId) ?_
      refine .kept rfl rfl (reads_array_map htext c.publicInputs) ?_
      refine .kept rfl rfl (CoordinatePair.reads c.alpha) ?_
      refine .kept rfl rfl (CoordinatePair.reads_twice c.beta) ?_
      refine .kept rfl rfl (CoordinatePair.reads_twice c.gamma) ?_
      refine .kept rfl rfl (CoordinatePair.reads_twice c.delta) ?_
      exact .kept rfl rfl (reads_array_map CoordinatePair.reads c.inputPoints) (.nil _)
    exact reads_record hfills rfl
  rw [parse, format, hread.parse]

end VerifierContract

end TreeProver
