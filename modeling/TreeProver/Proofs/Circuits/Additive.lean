import TreeProver.Circuits.Library
import TreeProver.Proofs.Circuits.Faithful

/-!
# Additive computations

Whatever state a computation is in, laying it out can only add to a layout: when it succeeds, the
layout has grown by some demand, and the ports stand for byte strings. The circuits of the library
are additive.
-/

namespace TreeProver

open Circuit Layout Synth

/-- Laying the computation out adds columns and gates, and puts byte strings on the ports. -/
class Additive (γ : Type) [Computation γ] : Prop where
  grows : ∀ {c : γ} {s t : Layout} {ports : Ports}, s.Filled →
    (Computation.define c).run s = (.ok ports, t) → ∃ p input output,
      Lays (Computation.define c) s p ports t ∧ t.BytesAre ports.input input ∧
        t.BytesAre ports.output output

variable {γ : Type} [Computation γ]

/-- The computation either can be laid out nowhere, or it computes one output from one input under
one demand, wherever it is laid out. -/
def FailsOrComputes (c : γ) : Prop :=
  (∀ s : Layout, s.Filled → Fails (Computation.define c) s) ∨
    ∃ p input output, Computes c p input output

/-- Whether a computation fails or computes depends on how it is laid out alone. -/
theorem FailsOrComputes.congr {c c' : γ} (h : FailsOrComputes c')
    (hc : Computation.define c = Computation.define c') : FailsOrComputes c := by
  simp only [FailsOrComputes, Computes, hc]
  exact h

/-- Computations that fail or compute in every state are additive. -/
theorem Additive.of_failsOrComputes (h : ∀ c : γ, FailsOrComputes c) : Additive γ where
  grows {c s t ports} hs hr := by
    rcases h c with hf | ⟨p, input, output, hc⟩
    · exact absurd hr (hf s hs).not_ok
    · obtain ⟨ports', t', ht, hi, ho⟩ := hc hs
      rw [ht.run] at hr
      obtain ⟨hp, rfl⟩ := Prod.mk.inj hr
      obtain rfl := Except.ok.inj hp
      exact ⟨p, input, output, ht, hi, ho⟩

namespace Circuit.Buffer

/-- The wires of a buffer either cannot be allocated, or they are those of a buffer with values. -/
theorem allocWires_cases (b : Buffer) :
    (∀ s : Layout, s.Filled → Fails b.allocWires s) ∨ ∃ xs : Bytes, xs.length = b.size ∧
      b.allocWires = allocWires { b with values := some xs } := by
  cases hv : b.values with
  | none =>
    by_cases hs : b.size = 0
    · exact .inr ⟨[], hs.symm, by simp [allocWires, hv, hs, Byte.allocAll, Byte.optionalBytes]⟩
    · exact .inl fun s h ↦ by
        rw [allocWires, hv]
        exact Byte.allocAll_fails h.mode hs
  | some xs =>
    by_cases hl : xs.length = b.size
    · exact .inr ⟨xs, hl, by rw [allocWires, hv, allocWires]⟩
    · exact .inl fun s _ ↦ by
        rw [allocWires, hv]
        exact Byte.allocAll_fails_of_length hl

end Circuit.Buffer

/-- A computation that begins with the wires of a buffer fails or computes as soon as it does so
with values of the size of the buffer in it. -/
theorem failsOrComputes_of_buffer {c : γ} {b : Buffer} {k : List Byte → Synth Ports}
    (withValues : Bytes → γ) (hd : Computation.define c = b.allocWires >>= k)
    (hw : ∀ xs, Computation.define (withValues xs)
      = Buffer.allocWires { b with values := some xs } >>= k)
    (h : ∀ xs : Bytes, xs.length = b.size → FailsOrComputes (withValues xs)) :
    FailsOrComputes c := by
  rcases b.allocWires_cases with hf | ⟨xs, hl, he⟩
  · exact .inl fun s hs ↦ hd ▸ (hf s hs).bind
  · exact (h xs hl).congr (by rw [hd, he, hw])

namespace MaskCircuit

instance : Additive MaskCircuit := .of_failsOrComputes fun c ↦
  failsOrComputes_of_buffer (b := c.input)
    (k := fun wires ↦ pure ⟨wires, wires.map (Byte.mask c.mask)⟩)
    (fun xs ↦ ⟨c.mask, ⟨c.input.size, some xs, c.input.wires⟩⟩)
    (by simp [Computation.define, define, Buffer.alloc_eq])
    (fun xs ↦ by simp [Computation.define, define, Buffer.alloc_eq])
    fun xs hl ↦ .inr ⟨_, _, _, computes rfl hl⟩

end MaskCircuit

namespace ListRootCircuit

instance : Additive ListRootCircuit := .of_failsOrComputes fun c ↦
  failsOrComputes_of_buffer (b := c.input)
    (k := fun wires ↦ do
      let leaves ← nodes c.leaves wires
      let root ← Node.root leaves c.leaves
      pure ⟨wires, root.bytes⟩)
    (fun xs ↦ ⟨c.leaves, ⟨c.input.size, some xs, c.input.wires⟩⟩)
    (by simp [Computation.define, define, Buffer.alloc_eq])
    (fun xs ↦ by simp [Computation.define, define, Buffer.alloc_eq])
    fun xs hl ↦ by
      rcases fails_or_computes (c := ⟨c.leaves, ⟨c.input.size, some xs, c.input.wires⟩⟩) rfl hl
        with hf | ⟨p, output, hc⟩
      · exact .inl hf
      · exact .inr ⟨p, xs, output, hc⟩

end ListRootCircuit

namespace InclusionCircuit

/-- Without an opening the inclusion circuit cannot be laid out. -/
theorem fails_of_opening_none {c : InclusionCircuit} (ho : c.opening = none) {s : Layout}
    (h : s.Filled) {xs : Bytes} (hv : c.input.values = some xs)
    (hl : xs.length = c.input.size) : Fails (Computation.define c) s := by
  obtain ⟨wires, s₁, h₁, -, -⟩ := Buffer.alloc_lays h hv hl
  -- The root and the index are cut out of the input, and then there is no leaf.
  have hleaf : Fails (Node.alloc .witness none) s₁ :=
    Fails.bind (Byte.allocAll_fails h₁.grows.filled.mode (by decide))
  simp only [Computation.define, define, ho, Option.map_none]
  refine h₁.bind_fails ?_
  cases hr : Node.ofBytes (wires.take Word.size) with
  | error e => exact Fails.bind (Fails.ofExcept rfl)
  | ok root =>
    refine (Lays.ofExcept h₁.grows.filled rfl).bind_fails ?_
    cases hg : Index.ofBytes (wires.drop Word.size) with
    | error e => exact Fails.bind (Fails.ofExcept rfl)
    | ok g => exact (Lays.ofExcept h₁.grows.filled rfl).bind_fails hleaf.bind

instance : Additive InclusionCircuit := .of_failsOrComputes fun c ↦
  failsOrComputes_of_buffer (b := c.input)
    (k := fun wires ↦ do
      let root ← Node.ofBytes (wires.take Word.size)
      let gindex ← Index.ofBytes (wires.drop Word.size)
      let leaf ← Node.alloc .witness (c.opening.map Prod.fst)
      let path ← c.optionalPath.mapM (Node.alloc .witness)
      Node.verifyAt root leaf path gindex
      pure ⟨wires, leaf.bytes⟩)
    (fun xs ↦ ⟨c.depth, c.opening, ⟨c.input.size, some xs, c.input.wires⟩⟩)
    (by simp [Computation.define, define, Buffer.alloc_eq])
    (fun xs ↦ by
      simp [Computation.define, define, Buffer.alloc_eq, optionalPath])
    fun xs hl ↦ by
      cases ho : c.opening with
      | none => exact .inl fun s h ↦ fails_of_opening_none rfl h rfl hl
      | some opening =>
        rcases fails_or_computes
            (c := ⟨c.depth, some opening, ⟨c.input.size, some xs, c.input.wires⟩⟩) rfl rfl hl
          with hf | ⟨p, output, hc⟩
        · exact .inl hf
        · exact .inr ⟨p, xs, output, hc⟩

end InclusionCircuit

namespace FixedCircuit

/-- The constant ports of a fixed circuit stand for its input and its output. -/
private theorem ports_are (c : FixedCircuit) (s : Layout) :
    s.BytesAre (c.input.map Byte.constant) c.input ∧
      s.BytesAre (c.output.map Byte.constant) c.output :=
  ⟨Byte.bytesAre_constant c.input, Byte.bytesAre_constant c.output⟩

/-- With as many private bytes as are expected the fixed circuit computes its constant output from
its constant input, under the demand that the private bytes are the expected ones. -/
theorem computes {c : FixedCircuit} {xs ys : Bytes}
    (ha : Byte.allocAll .witness c.secretSize c.secret
      = Byte.allocAll .witness xs.length (some xs))
    (hx : c.expected = some ys) (hy : xs.length = ys.length) :
    Computes c (xs = ys) c.input c.output := by
  intro s h
  obtain ⟨secret, t, ht, hs, hw⟩ := Byte.allocAll_lays h .witness xs
  obtain ⟨u, hu⟩ := Byte.demandAllEqual_lays ht.grows.filled hs (Byte.bytesAre_constant ys)
    (by rw [hs.length_eq, hy, List.length_map]) fun b hb ↦ hw b hb (by decide)
  have hp := Lays.pure hu.grows.filled
    (Ports.mk (c.input.map Byte.constant) (c.output.map Byte.constant))
  refine ⟨⟨c.input.map Byte.constant, c.output.map Byte.constant⟩, u, ?_, ports_are c u⟩
  simp only [Computation.define, define, ha, hx]
  exact (ht.bind (hu.bind hp)).congr (by simp)

/-- The fixed circuit fails for private bytes of a number that is not asked for or not expected, and
computes otherwise. -/
theorem fails_or_computes (c : FixedCircuit) : FailsOrComputes c := by
  rcases Buffer.allocWires_cases ⟨c.secretSize, c.secret, []⟩ with hf | ⟨xs, hl, he⟩
  · exact .inl fun s h ↦ (hf s h).bind
  · have ha : Byte.allocAll .witness c.secretSize c.secret
        = Byte.allocAll .witness xs.length (some xs) := by
      rw [show xs.length = c.secretSize from hl]
      exact he
    cases hx : c.expected with
    | none =>
      refine .inr ⟨True, c.input, c.output, fun s h ↦ ?_⟩
      obtain ⟨secret, t, ht, -, -⟩ := Byte.allocAll_lays h .witness xs
      have hp := Lays.pure ht.grows.filled
        (Ports.mk (c.input.map Byte.constant) (c.output.map Byte.constant))
      refine ⟨⟨c.input.map Byte.constant, c.output.map Byte.constant⟩, t, ?_, ports_are c t⟩
      simp only [Computation.define, define, ha, hx]
      exact (ht.bind hp).congr (by simp)
    | some ys =>
      by_cases hy : xs.length = ys.length
      · exact .inr ⟨_, _, _, computes ha hx hy⟩
      · refine .inl fun s h ↦ ?_
        obtain ⟨secret, t, ht, hs, -⟩ := Byte.allocAll_lays h .witness xs
        have hne : secret.length ≠ (ys.map Byte.constant).length := by
          rwa [hs.length_eq, List.length_map]
        have hf : Fails (Byte.demandAllEqual secret (ys.map Byte.constant)) t := by
          simp only [Byte.demandAllEqual, hne, ne_eq, not_false_eq_true, ↓reduceIte]
          exact Fails.bind (Fails.throw _)
        simp only [Computation.define, define, ha, hx]
        exact ht.bind_fails hf.bind

instance : Additive FixedCircuit := .of_failsOrComputes fails_or_computes

end FixedCircuit

namespace LibraryCircuit

instance : Additive LibraryCircuit where
  grows {c s t ports} h hr := by
    cases c with
    | inclusion c => exact Additive.grows (c := c) h hr
    | listRoot c => exact Additive.grows (c := c) h hr
    | mask c => exact Additive.grows (c := c) h hr
    | fixed c => exact Additive.grows (c := c) h hr

end LibraryCircuit

end TreeProver
