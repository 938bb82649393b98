import TreeProver.Proofs.Json.Exchange
import TreeProver.Proofs.Verification

/-!
# What a contract says about a key

A contract writes the points of a key as coordinates. Read by the rules for the points of proofs
these are the points of the key again, so a contract describes only one key, whatever it says about
the identity of the circuit; and so does its JSON text. The public inputs have as many different
names as there are points for them.
-/

namespace TreeProver

namespace VerifierContract

variable {k : VerifyingKey} {c d : VerifierContract}

/-! ### The names of public inputs -/

/-- The letter that both names of commitments have is in no numbered name. -/
theorem not_mem_numbered (n : Nat) : 'H' ∉ ("input" ++ toString n).toList := by
  rw [String.toList_append, List.mem_append]
  rintro (h | h)
  · exact absurd h (by decide)
  · rw [Nat.toString_eq_repr, Nat.repr_eq_ofList_toDigits, String.toList_ofList] at h
    exact absurd (Nat.isDigit_of_mem_toDigits (by decide) (by decide) h) (by decide)

/-- Two public inputs or more have as many names. -/
theorem length_inputNames {count : Nat} (h : 2 ≤ count) : (inputNames count).length = count := by
  rw [inputNames, List.length_append, List.length_map, List.length_range]
  exact Nat.add_sub_cancel' h

/-- Public inputs have different names. -/
theorem nodup_inputNames (count : Nat) : (inputNames count).Nodup := by
  rw [inputNames, List.nodup_append]
  refine ⟨by decide, ?_, ?_⟩
  · apply List.Nodup.map_on _ List.nodup_range
    intro i _ j _ h
    have hname : toString (i + 2) = toString (j + 2) := (String.append_right_inj _).1 h
    rw [Nat.toString_eq_repr, Nat.toString_eq_repr, Nat.repr_eq_ofList_toDigits,
      Nat.repr_eq_ofList_toDigits, String.ofList_inj] at hname
    have hnumber := congrArg (Nat.ofDigitChars 10 · 0) hname
    simp only [Nat.ofDigitChars_ten_toDigits] at hnumber
    exact Nat.add_right_cancel hnumber
  · intro name hname numbered hnumbered hsame
    obtain ⟨i, -, rfl⟩ := List.mem_map.1 hnumbered
    refine not_mem_numbered (i + 2) ?_
    rw [← show name = "input" ++ toString (i + 2) from hsame]
    rcases List.mem_cons.1 hname with rfl | hname
    · decide
    · rw [List.mem_singleton.1 hname]
      decide

/-! ### The points of the key -/

/-- The key whose points a contract describes, by the rules for the points of proofs. -/
def toKey (c : VerifierContract) : Except Error VerifyingKey := do
  let alpha ← Proof.point1 "alpha" c.alpha
  let beta ← Proof.point2 c.beta
  let gamma ← Proof.point2 c.gamma
  let delta ← Proof.point2 c.delta
  let inputs ← c.inputPoints.mapM (Proof.point1 "ic")
  .ok ⟨alpha, beta, gamma, delta, inputs⟩

/-- What is stored for a point of the second group are the coordinates that proofs have for it: also
for the identity, which a contract does not tell from other points. -/
theorem words2_eq (p : G2) : words2 p = Proof.coordinates2 p := by
  cases p with
  | identity => rfl
  | affine x y => rfl

/-- A key has a contract exactly when it has points for two public inputs. -/
theorem exists_ofKey_iff : (∃ c, ofKey k = .ok c) ↔ 3 ≤ k.inputs.length := by
  rw [ofKey]
  split
  · next h => exact iff_of_false nofun (Nat.not_le.2 h)
  · next h => exact iff_of_true ⟨_, rfl⟩ (Nat.not_lt.1 h)

/-- A key without points for two public inputs is refused for their number. -/
theorem ofKey_of_lt (h : k.inputs.length < 3) :
    ofKey k = .error (.shapeMismatch "verifying key input points" 3 k.inputs.length) := if_pos h

/-- The names in a contract are those of as many public inputs as there are points for. -/
theorem publicInputs_ofKey (h : ofKey k = .ok c) :
    c.inputPoints.length = k.inputs.length ∧ c.publicInputs = inputNames (k.inputs.length - 1) := by
  rw [ofKey] at h
  split at h
  · contradiction
  · obtain rfl := Except.ok.inj h
    exact ⟨List.length_map _, rfl⟩

/-- The key is read back from its contract. -/
theorem toKey_ofKey (hk : k.HasMembers) (h : ofKey k = .ok c) : c.toKey = .ok k := by
  have hinputs : (k.inputs.map Proof.coordinates1).mapM (Proof.point1 "ic") = .ok k.inputs := by
    rw [Except.mapM_ok_iff, List.forall₂_map_left_iff, List.forall₂_same]
    exact fun p hp ↦ Proof.point1_coordinates "ic" (hk.inputs p hp)
  rw [ofKey] at h
  split at h
  · contradiction
  · obtain rfl := Except.ok.inj h
    simp only [toKey, words2_eq, Proof.point1_coordinates "alpha" hk.alpha,
      Proof.point2_coordinates hk.beta, Proof.point2_coordinates hk.gamma,
      Proof.point2_coordinates hk.delta, hinputs, bind, Except.bind]

/-- Contracts from which different keys are read differ in more than the identity of the circuit. -/
theorem ne_of_toKey_ne {k' : VerifyingKey} (hc : c.toKey = .ok k) (hd : d.toKey = .ok k')
    (h : k ≠ k') (id : String) : { c with circuitId := id } ≠ { d with circuitId := id } := by
  intro he
  have hsame : c.toKey = d.toKey :=
    show toKey { c with circuitId := id } = toKey { d with circuitId := id } from congrArg toKey he
  rw [hc, hd] at hsame
  exact h (Except.ok.inj hsame)

/-- A contract is a faithful description of a key. A key has one exactly when it has points for two
public inputs, and is otherwise refused for their number. For a key of points of the groups, the
identity among them, the contract names one public input fewer than there are points, all
differently and the commitments first, and the key is read back from it; and so it is from what its
JSON text is parsed into. Hence neither the contracts of two different keys nor what their texts are
parsed into are equal, even if the identity of the circuit is left out of them. -/
theorem contract_describes_key :
    (∀ k : VerifyingKey, ((∃ c, ofKey k = .ok c) ↔ 3 ≤ k.inputs.length) ∧
      (¬ 3 ≤ k.inputs.length → ofKey k
        = .error (.shapeMismatch "verifying key input points" 3 k.inputs.length))) ∧
    (∀ (k : VerifyingKey) (c : VerifierContract), k.HasMembers → ofKey k = .ok c →
      c.inputPoints.length = k.inputs.length ∧
      c.publicInputs.length = c.inputPoints.length - 1 ∧ c.publicInputs.Nodup ∧
      ["inputHash", "outputHash"] <+: c.publicInputs ∧ c.toKey = .ok k ∧
      ∃ d, parse c.format = .ok d ∧ d.publicInputs = c.publicInputs ∧ d.toKey = .ok k) ∧
    ∀ (k k' : VerifyingKey) (c c' : VerifierContract), k.HasMembers → k'.HasMembers →
      ofKey k = .ok c → ofKey k' = .ok c' → k ≠ k' →
        (∀ id, { c with circuitId := id } ≠ { c' with circuitId := id }) ∧
        ∀ d d', parse c.format = .ok d → parse c'.format = .ok d' →
          ∀ id, { d with circuitId := id } ≠ { d' with circuitId := id } := by
  refine ⟨fun k ↦ ⟨exists_ofKey_iff, fun h ↦ ofKey_of_lt (Nat.not_le.1 h)⟩, ?_, ?_⟩
  · intro k c hk h
    have hinputs := exists_ofKey_iff.1 ⟨c, h⟩
    obtain ⟨hpoints, hnames⟩ := publicInputs_ofKey h
    have hread := toKey_ofKey hk h
    refine ⟨hpoints, ?_, ?_, ?_, hread, c, c.parse_format, rfl, hread⟩
    · rw [hpoints, hnames, length_inputNames (by omega)]
    · rw [hnames]
      exact nodup_inputNames _
    · rw [hnames, inputNames]
      exact List.prefix_append _ _
  · intro k k' c c' hk hk' h h' hne
    have hdiffer := ne_of_toKey_ne (toKey_ofKey hk h) (toKey_ofKey hk' h') hne
    refine ⟨hdiffer, fun d d' hd hd' ↦ ?_⟩
    obtain rfl := Except.ok.inj (c.parse_format.symm.trans hd)
    obtain rfl := Except.ok.inj (c'.parse_format.symm.trans hd')
    exact hdiffer

/-- A key of generators and identities for three public inputs is read back from its contract, which
differs from that of the key with the identity in place of a generator; and with points for one
public input it has no contract. -/
theorem contract_describes_key_generators :
    let k : VerifyingKey := ⟨G1.generator, G2.generator, .identity, G2.generator,
      [.identity, G1.generator, .identity, G1.generator]⟩
    let k' : VerifyingKey := { k with beta := .identity }
    k.HasMembers ∧ k'.HasMembers ∧ k ≠ k' ∧
    (∃ c c', ofKey k = .ok c ∧ ofKey k' = .ok c' ∧
      c.publicInputs = ["inputHash", "outputHash", "input2"] ∧ c.toKey = .ok k ∧
      ∀ id, { c with circuitId := id } ≠ { c' with circuitId := id }) ∧
    ofKey { k with inputs := [.identity, .identity] }
      = .error (.shapeMismatch "verifying key input points" 3 2) := by
  intro k k'
  have h1 := G1.isMember_generator
  have h2 := G2.isMember_generator
  have h0 := G2.isMember_identity
  have hk : k.HasMembers := ⟨h1, h2, h0, h2, by decide⟩
  have hk' : k'.HasMembers := ⟨h1, h0, h0, h2, by decide⟩
  have hne : k ≠ k' := fun h ↦ absurd (congrArg VerifyingKey.beta h) (by decide)
  obtain ⟨hofKey, hdescribes, hdiffer⟩ := contract_describes_key
  obtain ⟨c, hc⟩ := (hofKey k).1.2 (by decide)
  obtain ⟨c', hc'⟩ := (hofKey k').1.2 (by decide)
  obtain ⟨-, -, -, -, hread, -⟩ := hdescribes k c hk hc
  refine ⟨hk, hk', hne, ⟨c, c', hc, hc', ?_, hread, (hdiffer k k' c c' hk hk' hc hc' hne).1⟩, ?_⟩
  · rw [(publicInputs_ofKey hc).2]
    rfl
  · exact (hofKey _).2 (by decide)

end VerifierContract

end TreeProver
