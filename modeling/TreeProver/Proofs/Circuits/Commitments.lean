import TreeProver.Proofs.Build
import TreeProver.Proofs.Circuits.Faithful
import TreeProver.Proofs.Verification

/-!
# Mismatched commitments

A statement ties each stored commitment, as a scalar, to the digest of the bytes inside the circuit.
Scalars are numbers modulo the order of the groups, which is below `2 ^ 256`, so a stored word is
told from the recorded commitment only when the two leave different remainders. Among the words
below the modulus, which include all commitments that a verifier takes, no word but the recorded one
satisfies the statement. A word past it may, and then the verifier refuses the proof.
-/

namespace TreeProver

open Circuit Layout

variable {γ : Type} [Computation γ]

/-- The constraints of the computation alone can be laid out and hold. -/
def EmbeddedHold (c : γ) : Prop :=
  ∃ ports s, (Computation.define c).run (Layout.empty .proving) = (.ok ports, s) ∧
    s.isSatisfied = .ok true

/-- The statement of a computation with other commitments stored in it. -/
def Committed.store (f : Committed γ) (inputHash outputHash : Word) : Committed γ :=
  { f with inputHash := some inputHash, outputHash := some outputHash }

/-- A demand on a computation holds exactly when its constraints alone hold. -/
theorem Computes.embeddedHold_iff {c : γ} {p : Prop} {input output : Bytes}
    (h : Computes c p input output) : EmbeddedHold c ↔ p := by
  obtain ⟨ports, s, hl, -, -⟩ := h (filled_empty .proving (by decide))
  have hs : s.Satisfied ↔ p := by
    rw [hl.grows.satisfied]
    simp [satisfied_empty]
  constructor
  · rintro ⟨ports', s', hr, hsat⟩
    rw [hl.run] at hr
    obtain ⟨-, rfl⟩ := Prod.mk.inj hr
    rcases hl.grows.filled.firstViolated hl.grows.mode with ⟨-, ht⟩ | ⟨⟨i, hv⟩, -⟩
    · exact hs.1 ht
    · simp [isSatisfied, hv, Except.map] at hsat
  · intro hp
    have ht : s.Satisfied ↔ true = true := by simp [hs, hp]
    exact ⟨ports, s, hl.run, hl.grows.filled.isSatisfied_eq hl.grows.mode ht⟩

namespace Faithful

variable [Faithful γ]

/-- A computation that has taken its input and given an output computes that output. -/
theorem computes_of_assign {f g : Committed γ} {input : Bytes} (h : f.assign input = .ok g) :
    ∃ p output, Computes g.computation p input output ∧
      g.inputHash = some (commitment input) ∧ g.outputHash = some (commitment output) := by
  obtain ⟨c, output, ha, ho, rfl⟩ := Committed.setInput_ok_iff.1 (Committed.assign_ok_iff.1 h)
  rcases computes ha with hf | ⟨p, output', hc⟩
  · obtain ⟨e, t, hr⟩ := hf _ (filled_empty .valuesOnly (by decide))
    simp [Committed.output, hr] at ho
  · rw [hc.output_eq] at ho
    obtain rfl := Except.ok.inj ho
    exact ⟨p, output', hc, rfl, rfl⟩

end Faithful

namespace Word

/-- The word leaves another one as its remainder modulo the order of the groups. -/
def Aliases (w recorded : Word) : Prop := w.toNat % scalarModulus = recorded.toNat

instance (w recorded : Word) : Decidable (w.Aliases recorded) := Nat.decEq _ _

/-- Below the modulus a word aliases a commitment only if it is the commitment. -/
theorem aliases_commitment_iff {w : Word} {data : Bytes} (h : w.toNat < scalarModulus) :
    w.Aliases (commitment data) ↔ w = commitment data := by
  rw [Aliases, Nat.mod_eq_of_lt h]
  exact ⟨toNat_inj, fun he ↦ congrArg toNat he⟩

/-- An alias of a commitment has as few bits as one only if it is the commitment. -/
theorem Aliases.lt_capacity_iff {w : Word} {data : Bytes} (h : w.Aliases (commitment data)) :
    w.toNat < 2 ^ commitmentBits ↔ w = commitment data := by
  constructor
  · intro hw
    exact (aliases_commitment_iff (Nat.lt_trans hw capacity_lt_scalarModulus)).1 h
  · rintro rfl
    exact toNat_commitment_lt data

end Word

namespace Computes

variable {c : γ} {p : Prop} {input output : Bytes}

/-- Where the demand of the computation is met, checking a statement compares the stored words with
the commitments to the input and the output, as scalars. -/
theorem check_eq (h : Computes c p input output) (hp : p) (inputHash outputHash : Word) :
    ∃ s, (⟨some inputHash, some outputHash, c⟩ : Committed γ).layout .proving = .ok s ∧
      s.isSatisfied = .ok (decide (inputHash.Aliases (commitment input)
        ∧ outputHash.Aliases (commitment output))) := by
  refine h.layout_isSatisfied inputHash outputHash ?_
  rw [decide_eq_true_iff, Word.toScalar_eq_commitment_iff, Word.toScalar_eq_commitment_iff]
  exact ⟨fun hs ↦ hs.2, fun hs ↦ ⟨hp, hs⟩⟩

/-- A build refuses stored words that do not both alias the commitments. -/
theorem prove_refused [Backend] (h : Computes c p input output) {inputHash outputHash : Word}
    (hn : ¬ (inputHash.Aliases (commitment input) ∧ outputHash.Aliases (commitment output)))
    (b : Build) :
    ∃ i, b.prove (⟨some inputHash, some outputHash, c⟩ : Committed γ)
      = .error (.refused (.unsatisfied i)) := by
  obtain ⟨s, hl, hf, hm, hs⟩ := h.layout_satisfied_iff inputHash outputHash
  rw [Word.toScalar_eq_commitment_iff, Word.toScalar_eq_commitment_iff] at hs
  exact b.exists_unsatisfied rfl rfl hl hf hm fun ht ↦ hn (hs.1 ht).2

/-- A proof carries the stored words, and they alias the commitments. -/
theorem aliases_of_prove [Backend] (h : Computes c p input output) {inputHash outputHash : Word}
    {b : Build} {q : Proof}
    (hq : b.prove (⟨some inputHash, some outputHash, c⟩ : Committed γ) = .ok q) :
    (q.inputHash = inputHash ∧ q.outputHash = outputHash) ∧
      inputHash.Aliases (commitment input) ∧ outputHash.Aliases (commitment output) := by
  constructor
  · obtain ⟨_, _, _, _, hi, ho, -, -, rfl⟩ := Build.prove_ok_iff.1 hq
    exact ⟨(Option.some.inj hi).symm, (Option.some.inj ho).symm⟩
  · by_contra hn
    obtain ⟨i, hr⟩ := h.prove_refused hn b
    rw [hr] at hq
    contradiction

end Computes

/-- What becomes of other words in the place of the recorded commitments. The statement is satisfied
exactly when both alias the recorded ones, which below the modulus only the recorded ones do.
Without aliases every build refuses. A proof for aliases is refused by every key for its public
inputs, unless they are the recorded commitments. -/
theorem Faithful.stored_commitments [Faithful γ] [Backend] {f g : Committed γ} {input : Bytes}
    (h : f.assign input = .ok g) (he : EmbeddedHold g.computation) :
    ∃ recordedIn recordedOut, g.inputHash = some recordedIn ∧ g.outputHash = some recordedOut ∧
      ∀ inputHash outputHash : Word,
        (∃ s, (g.store inputHash outputHash).layout .proving = .ok s ∧ s.isSatisfied
          = .ok (decide (inputHash.Aliases recordedIn ∧ outputHash.Aliases recordedOut))) ∧
        (inputHash.toNat < scalarModulus → (inputHash.Aliases recordedIn ↔
          inputHash = recordedIn)) ∧
        (outputHash.toNat < scalarModulus → (outputHash.Aliases recordedOut ↔
          outputHash = recordedOut)) ∧
        (∀ b : Build, ¬ (inputHash.Aliases recordedIn ∧ outputHash.Aliases recordedOut) →
          ∃ i, b.prove (g.store inputHash outputHash) = .error (.refused (.unsatisfied i))) ∧
        ∀ (b : Build) (q : Proof), b.prove (g.store inputHash outputHash) = .ok q →
          ∀ k : VerifyingKey, (∃ why, k.verify q = .error (.invalidPublicInput why)) ↔
            ¬ (inputHash = recordedIn ∧ outputHash = recordedOut) := by
  obtain ⟨p, output, hc, hi, ho⟩ := computes_of_assign h
  have hp : p := hc.embeddedHold_iff.1 he
  refine ⟨_, _, hi, ho, fun inputHash outputHash ↦ ⟨hc.check_eq hp _ _,
    Word.aliases_commitment_iff, Word.aliases_commitment_iff, fun b hn ↦ hc.prove_refused hn b,
    fun b q hq k ↦ ?_⟩⟩
  obtain ⟨⟨hqi, hqo⟩, hai, hao⟩ := hc.aliases_of_prove hq
  rw [VerifyingKey.verify_invalidPublicInput_iff, hqi, hqo, hai.lt_capacity_iff,
    hao.lt_capacity_iff]

/-- The theorem speaks of the mask circuit for no bytes at all. -/
theorem Faithful.stored_commitments_mask :
    let f : Committed MaskCircuit := .ofComputation (.new 0 0)
    ∃ g, f.assign [] = .ok g ∧ EmbeddedHold g.computation ∧
      ∃ recordedIn recordedOut, g.inputHash = some recordedIn ∧ g.outputHash = some recordedOut ∧
        ∀ inputHash outputHash : Word, ∃ s,
          (g.store inputHash outputHash).layout .proving = .ok s ∧ s.isSatisfied
            = .ok (decide (inputHash.Aliases recordedIn ∧ outputHash.Aliases recordedOut)) := by
  intro f
  have hc : Computes (⟨0, ⟨0, some [], []⟩⟩ : MaskCircuit) True [] [] :=
    MaskCircuit.computes rfl rfl
  have ha : f.assign [] = .ok ⟨_, _, ⟨0, ⟨0, some [], []⟩⟩⟩ := hc.assign_eq rfl
  have he : EmbeddedHold (⟨0, ⟨0, some [], []⟩⟩ : MaskCircuit) :=
    hc.embeddedHold_iff.2 trivial
  obtain ⟨i, o, hi, ho, hs⟩ := Faithful.stored_commitments ha he
  exact ⟨_, ha, he, i, o, hi, ho, fun x y ↦ (hs x y).1⟩

/-- The commitment to no bytes and the order of the groups add up to another word. -/
def aliasOfEmpty : Word :=
  .ofNat 0x341512b57a2dbc3e534c3a7f1af111814fe22a2cde5503dde8778eaf6852b856

/-- A word that differs from the recorded commitment to the input satisfies the statement of the
mask circuit for no bytes. -/
theorem mask_satisfied_by_alias :
    ∃ g : Committed MaskCircuit, (Committed.ofComputation (.new 0 0)).assign [] = .ok g ∧
      EmbeddedHold g.computation ∧ g.inputHash = some (commitment []) ∧
      g.outputHash = some (commitment []) ∧ aliasOfEmpty ≠ commitment [] ∧
      ∃ s, (g.store aliasOfEmpty (commitment [])).layout .proving = .ok s ∧
        s.isSatisfied = .ok true := by
  have hc : Computes (⟨0, ⟨0, some [], []⟩⟩ : MaskCircuit) True [] [] :=
    MaskCircuit.computes rfl rfl
  refine ⟨_, hc.assign_eq rfl, hc.embeddedHold_iff.2 trivial, rfl, rfl, by decide +kernel, ?_⟩
  obtain ⟨s, hl, hs⟩ := hc.check_eq trivial aliasOfEmpty (commitment [])
  have ha : aliasOfEmpty.Aliases (commitment []) ∧ (commitment []).Aliases (commitment []) := by
    decide +kernel
  exact ⟨s, hl, by rw [hs, decide_eq_true ha]⟩

end TreeProver
