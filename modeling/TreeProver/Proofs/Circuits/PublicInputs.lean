import TreeProver.Proofs.Circuits.Additive

/-!
# What two public inputs say

The two public inputs of a satisfied statement are the commitments to the bytes on its ports. A
commitment has fewer bits than the modulus, so equal scalars are equal commitments, and the
encodings that are committed to are injective. Two statements with the same public inputs therefore
speak of the same data, up to a collision of truncated digests.
-/

namespace TreeProver

open Circuit Layout Synth

namespace Committed

variable {γ : Type} [Computation γ]

/-- Lays the statement out and gives its ports. -/
def opened (f : Committed γ) : Synth Ports := do
  let inputHash ← Synth.newInput (f.inputHash.map Word.toScalar)
  let outputHash ← Synth.newInput (f.outputHash.map Word.toScalar)
  let ports ← Computation.define f.computation
  Synth.equate (← Synth.commitment ports.input commitmentBits) (Form.column inputHash)
  Synth.equate (← Synth.commitment ports.output commitmentBits) (Form.column outputHash)
  pure ports

/-- A statement is laid out without its ports being given. -/
theorem define_eq_opened (f : Committed γ) : f.define = f.opened >>= fun _ ↦ pure () := by
  simp [define, opened]

/-- The layout of a statement is the one behind its ports. -/
theorem layout_ok_iff {f : Committed γ} {mode : Mode} {s : Layout} :
    f.layout mode = .ok s ↔ ∃ ports, f.opened.run (Layout.empty mode) = (.ok ports, s) := by
  rw [layout_eq_iff, define_eq_opened, run_bind_ok_iff]
  refine exists_congr fun ports ↦ ⟨?_, fun h ↦ ⟨s, h, rfl⟩⟩
  rintro ⟨t, ht, hp⟩
  rw [ht, (Prod.mk.inj hp).2]

/-- The statement is laid out for proving with everything satisfied, and the two byte strings are on
its ports. -/
def Speaks (f : Committed γ) (s : Layout) (input output : Bytes) : Prop :=
  ∃ ports, f.opened.run (Layout.empty .proving) = (.ok ports, s) ∧ s.isSatisfied = .ok true ∧
    s.bytes? ports.input = some input ∧ s.bytes? ports.output = some output

/-- A statement that is laid out has filled its layout, and its public inputs are the stored
commitments. It has laid its computation out behind a filled layout, and keeps what it has put on
the ports. The public inputs are the commitments to it as soon as the layout is satisfied. -/
theorem opened_ok [Additive γ] {f : Committed γ} {ports : Ports} {s : Layout}
    (hr : f.opened.run (Layout.empty .proving) = (.ok ports, s)) :
    s.Filled ∧ s.mode = .proving ∧ (s.inputValues[0]? = f.inputHash.map Word.toScalar ∧
      s.inputValues[1]? = f.outputHash.map Word.toScalar) ∧ ∃ s₂ s₃ input output, s₂.Filled ∧
      (Computation.define f.computation).run s₂ = (.ok ports, s₃) ∧ s₃.Keeps s ∧
      s₃.BytesAre ports.input input ∧ s₃.BytesAre ports.output output ∧
      (s.isSatisfied = .ok true → s.inputValues[0]? = some (commitment input).toScalar ∧
        s.inputValues[1]? = some (commitment output).toScalar) := by
  have he : f.opened = (do
      let i ← newInput (f.inputHash.map Word.toScalar)
      let o ← newInput (f.outputHash.map Word.toScalar)
      let ports ← Computation.define f.computation
      (do equate (← Synth.commitment ports.input commitmentBits) (Form.column i))
      (do equate (← Synth.commitment ports.output commitmentBits) (Form.column o))
      pure ports) := by
    simp only [opened, bind_assoc]
  rw [he] at hr
  obtain ⟨i, s₁, h₁, hr⟩ := run_bind_ok_iff.1 hr
  obtain ⟨o, s₂, h₂, hr⟩ := run_bind_ok_iff.1 hr
  obtain ⟨ports', s₃, h₃, hr⟩ := run_bind_ok_iff.1 hr
  obtain ⟨_, s₄, h₄, hr⟩ := run_bind_ok_iff.1 hr
  obtain ⟨_, s₅, h₅, hr⟩ := run_bind_ok_iff.1 hr
  obtain ⟨hports, rfl⟩ := Prod.mk.inj hr
  obtain rfl := Except.ok.inj hports
  obtain ⟨x, hvx, rfl, hone, g₁, hx⟩ := newInput_ok (filled_empty .proving (by decide)) h₁
  obtain ⟨y, hvy, rfl, -, g₂, hy⟩ := newInput_ok g₁.filled h₂
  obtain ⟨p, input, output, hp, hin, hout⟩ := Additive.grows g₂.filled h₃
  have k₃ := g₂.keeps.trans hp.grows.keeps
  -- What was laid out at the end is what is demanded of commitments.
  obtain ⟨t₄, ht₄⟩ := equate_commitment_lays hp.grows.filled hin (k₃ _ _ hx) (by simp)
  obtain ⟨-, rfl⟩ := ht₄.unique h₄
  have k₄ := ht₄.grows.keeps
  obtain ⟨t₅, ht₅⟩ := equate_commitment_lays ht₄.grows.filled (k₄.bytesAre hout)
    (k₄ _ _ (hp.grows.keeps _ _ hy)) (by simp)
  obtain ⟨-, rfl⟩ := ht₅.unique h₅
  have k₅ := k₄.trans ht₅.grows.keeps
  have hm : s₅.mode = .proving :=
    ht₅.grows.mode.trans (ht₄.grows.mode.trans (hp.grows.mode.trans (g₂.mode.trans g₁.mode)))
  rw [hone] at hy
  have hi₀ : s₅.value? (.input 0) = some x := k₅ _ _ (k₃ _ _ hx)
  have hi₁ : s₅.value? (.input 1) = some y := k₅ _ _ (hp.grows.keeps _ _ hy)
  refine ⟨ht₅.grows.filled, hm, ⟨hi₀.trans hvx.symm, hi₁.trans hvy.symm⟩, s₂, s₃, input, output,
    g₂.filled, h₃, k₅, hin, hout, fun hs ↦ ?_⟩
  obtain ⟨hsat, hoc⟩ := ht₅.grows.satisfied.1 ((ht₅.grows.filled.isSatisfied_iff hm).1 hs)
  obtain ⟨-, hic⟩ := ht₄.grows.satisfied.1 hsat
  exact ⟨by rw [← hic]; exact hi₀, by rw [← hoc]; exact hi₁⟩

/-- A statement that is laid out for proving has filled its layout. -/
theorem filled_of_layout [Additive γ] {f : Committed γ} {s : Layout}
    (hl : f.layout .proving = .ok s) : s.Filled ∧ s.mode = .proving := by
  obtain ⟨ports, hr⟩ := layout_ok_iff.1 hl
  obtain ⟨hf, hm, -⟩ := opened_ok hr
  exact ⟨hf, hm⟩

/-- The public inputs of a statement that is laid out for proving are the commitments stored in
it. -/
theorem inputValues_of_layout [Additive γ] {f : Committed γ} {s : Layout}
    (hl : f.layout .proving = .ok s) : s.inputValues[0]? = f.inputHash.map Word.toScalar ∧
      s.inputValues[1]? = f.outputHash.map Word.toScalar := by
  obtain ⟨ports, hr⟩ := layout_ok_iff.1 hl
  obtain ⟨-, -, hv, -⟩ := opened_ok hr
  exact hv

/-- A satisfied statement speaks of some byte strings. -/
theorem exists_speaks [Additive γ] {f : Committed γ} {s : Layout} (hl : f.layout .proving = .ok s)
    (hs : s.isSatisfied = .ok true) : ∃ input output, f.Speaks s input output := by
  obtain ⟨ports, hr⟩ := layout_ok_iff.1 hl
  obtain ⟨-, -, -, _, _, input, output, -, -, hk, hin, hout, -⟩ := opened_ok hr
  exact ⟨input, output, ports, hr, hs, (hk.bytesAre hin).bytes?, (hk.bytesAre hout).bytes?⟩

/-- The public inputs of a satisfied statement are the commitments to what it speaks of. -/
theorem Speaks.inputValues_eq [Additive γ] {f : Committed γ} {s : Layout} {input output : Bytes}
    (h : f.Speaks s input output) : s.inputValues[0]? = some (commitment input).toScalar ∧
      s.inputValues[1]? = some (commitment output).toScalar := by
  obtain ⟨ports, hr, hs, hi, ho⟩ := h
  obtain ⟨-, -, -, _, _, input', output', -, -, hk, hin, hout, hc⟩ := opened_ok hr
  rw [(hk.bytesAre hin).bytes?] at hi
  rw [(hk.bytesAre hout).bytes?] at ho
  obtain rfl := Option.some.inj hi
  obtain rfl := Option.some.inj ho
  exact hc hs

/-- After taking an input, whatever commitments are stored, a faithful computation speaks of that
input. -/
theorem Speaks.input_eq [Additive γ] [Faithful γ] {f g : Committed γ} {data input output : Bytes}
    {s : Layout} (ha : Computation.assign f.computation data = .ok g.computation)
    (h : g.Speaks s input output) : input = data := by
  obtain ⟨ports, hr, -, hi, -⟩ := h
  obtain ⟨-, -, -, s₂, s₃, -, -, hf, hd, hk, -, -, -⟩ := opened_ok hr
  rcases Faithful.computes ha with hfails | ⟨p, out, hc⟩
  · exact absurd hd (hfails s₂ hf).not_ok
  · obtain ⟨ports', t, ht, hin, -⟩ := hc hf
    obtain ⟨rfl, rfl⟩ := ht.unique hd
    rw [(hk.bytesAre hin).bytes?] at hi
    exact (Option.some.inj hi).symm

end Committed

/-- Commitments are equal when they are equal as scalars. -/
theorem commitment_inj {data data' : Bytes}
    (h : (commitment data).toScalar = (commitment data').toScalar) :
    commitment data = commitment data' := by
  have hlt := Nat.lt_trans (toNat_commitment_lt data) capacity_lt_scalarModulus
  rw [Word.toScalar_eq_commitment_iff, Nat.mod_eq_of_lt hlt] at h
  exact Word.toNat_inj h

/-- Words that pass for commitments are equal when they are equal as scalars. -/
theorem Word.toScalar_inj_of_checked {name name' : String} {a b : Word}
    (ha : checkCommitment name a = .ok ()) (hb : checkCommitment name' b = .ok ())
    (h : a.toScalar = b.toScalar) : a = b := by
  rw [checkCommitment_ok_iff] at ha hb
  rw [toScalar_eq_iff, Nat.mod_eq_of_lt (Nat.lt_trans ha capacity_lt_scalarModulus),
    Nat.mod_eq_of_lt (Nat.lt_trans hb capacity_lt_scalarModulus)] at h
  exact toNat_inj h

/-- The input of as many leaves determines the leaves. -/
theorem LeafList.inputBytes_inj {w w' : LeafList} (hl : w.leaves.length = w'.leaves.length)
    (h : w.inputBytes = w'.inputBytes) : w.leaves = w'.leaves := by
  have hind {xs ys : List Word} (hl : xs.length = ys.length)
      (h : xs.flatMap Word.bytes = ys.flatMap Word.bytes) : xs = ys := by
    induction xs generalizing ys with
    | nil => exact (List.length_eq_zero_iff.1 hl.symm).symm
    | cons x xs ih =>
      cases ys with
      | nil => simp at hl
      | cons y ys =>
        rw [List.flatMap_cons, List.flatMap_cons] at h
        obtain ⟨hx, hxs⟩ := List.append_inj h (x.length_bytes.trans y.length_bytes.symm)
        rw [Word.ext hx, ih (Nat.succ.inj hl) hxs]
  exact hind hl h

/-- Two public inputs bind a statement. Satisfied statements speak of some byte strings. Two of them
that have the first public input in common, whatever computations they are about, speak of inputs
with the same commitment, and likewise for the second and the outputs. Behind a scalar there is at
most one word that passes for a commitment, and inputs determine what they encode. -/
theorem public_inputs_bind {γ δ : Type} [Computation γ] [Computation δ] [Additive γ] [Additive δ] :
    (∀ (f : Committed γ) (s : Layout), f.layout .proving = .ok s → s.isSatisfied = .ok true →
      ∃ input output, f.Speaks s input output) ∧
    (∀ (f : Committed γ) (g : Committed δ) (s t : Layout) (input output input' output' : Bytes),
      f.Speaks s input output → g.Speaks t input' output' →
        (s.inputValues[0]? = t.inputValues[0]? → commitment input = commitment input') ∧
        (s.inputValues[1]? = t.inputValues[1]? → commitment output = commitment output')) ∧
    (∀ (x : Fr) (a b : Word) (name name' : String), a.toScalar = x → b.toScalar = x →
      checkCommitment name a = .ok () → checkCommitment name' b = .ok () → a = b) ∧
    (∀ (root root' : Word) (g g' : UInt64),
      Inclusion.encodeInput root g = Inclusion.encodeInput root' g' → root = root' ∧ g = g') ∧
    ∀ w w' : LeafList, w.leaves.length = w'.leaves.length → w.inputBytes = w'.inputBytes →
      w.leaves = w'.leaves := by
  refine ⟨fun f s ↦ Committed.exists_speaks, fun f g s t input output input' output' hf hg ↦ ?_,
    fun x a b name name' ha hb hca hcb ↦ ?_, fun _ _ _ _ ↦ Inclusion.encodeInput_inj,
    fun _ _ ↦ LeafList.inputBytes_inj⟩
  · obtain ⟨hi, ho⟩ := hf.inputValues_eq
    obtain ⟨hi', ho'⟩ := hg.inputValues_eq
    rw [hi, hi', ho, ho']
    exact ⟨fun h ↦ commitment_inj (Option.some.inj h), fun h ↦ commitment_inj (Option.some.inj h)⟩
  · exact Word.toScalar_inj_of_checked hca hcb (ha.trans hb.symm)

/-- There is a satisfied statement about a circuit of the library, and every other one with its
public inputs speaks of data with the same commitments. -/
theorem public_inputs_bind_mask :
    ∃ (f : Committed LibraryCircuit) (s : Layout) (input output : Bytes),
      f.Speaks s input output ∧
      ∀ (g : Committed LibraryCircuit) (t : Layout) (input' output' : Bytes),
        g.Speaks t input' output' → s.inputValues[0]? = t.inputValues[0]? →
          s.inputValues[1]? = t.inputValues[1]? →
          commitment input = commitment input' ∧ commitment output = commitment output' := by
  have hc : Computes (LibraryCircuit.mask ⟨0, ⟨0, some [], []⟩⟩) True [] [] :=
    fun s h ↦ MaskCircuit.computes (c := ⟨0, ⟨0, some [], []⟩⟩) rfl rfl h
  have hb : (True ∧ (commitment []).toScalar = (commitment []).toScalar
      ∧ (commitment []).toScalar = (commitment []).toScalar) ↔ true = true := by simp
  obtain ⟨s, hl, hs⟩ := hc.layout_isSatisfied (commitment []) (commitment []) hb
  obtain ⟨hspeaks, hbind, -⟩ := public_inputs_bind (γ := LibraryCircuit) (δ := LibraryCircuit)
  obtain ⟨input, output, h⟩ := hspeaks _ s hl hs
  refine ⟨_, s, input, output, h, fun g t input' output' hg hi ho ↦ ?_⟩
  have hboth := hbind _ g s t input output input' output' h hg
  exact ⟨hboth.1 hi, hboth.2 ho⟩

end TreeProver
