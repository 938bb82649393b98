import TreeProver.Circuit.Path
import TreeProver.Proofs.Layout.Failure

/-!
# Key generation mirrors proving

During key generation no column has a value, yet the columns and gates have to be those that proving
lays out. An action is mirrored by another one when, on layouts of the same columns and gates, the
second succeeds during key generation whenever the first succeeds with values, gives the same
result, and leaves the same columns and gates behind. Nothing here reserves public inputs.
-/

namespace TreeProver.Circuit

open Layout

variable {α β : Type}

/-- The first layout is made for key generation and the second with values, and they have the same
columns and gates. -/
structure Layout.Mirrors (s₀ s : Layout) : Prop where
  setup : s₀.mode = .setup
  valued : s.mode ≠ .setup
  inputs : s₀.inputs = s.inputs
  witnesses : s₀.witnesses = s.witnesses
  gates : s₀.gates = s.gates

namespace Synth

/-- What the second action lays out with values the first lays out during key generation. The second
adds no public inputs. -/
def Mirrored (act₀ act : Synth α) : Prop :=
  ∀ ⦃s₀ s : Layout⦄, s₀.Mirrors s → ∀ ⦃a : α⦄ ⦃t : Layout⦄, act.run s = (.ok a, t) →
    (∃ t₀, act₀.run s₀ = (.ok a, t₀) ∧ t₀.Mirrors t) ∧ t.inputs = s.inputs

/-- Doing nothing is mirrored. -/
theorem Mirrored.pure (a : α) : Mirrored (Pure.pure a) (Pure.pure a) := by
  intro s₀ s h a' t ht
  obtain ⟨ha, rfl⟩ := Prod.mk.inj ht
  obtain rfl := Except.ok.inj ha
  exact ⟨⟨s₀, rfl, h⟩, rfl⟩

/-- Sequences are mirrored when their parts are. -/
theorem Mirrored.bind {act₀ act : Synth α} {f₀ f : α → Synth β} (h : Mirrored act₀ act)
    (hf : ∀ a, Mirrored (f₀ a) (f a)) : Mirrored (act₀ >>= f₀) (act >>= f) := by
  intro s₀ s hs b u hu
  obtain ⟨a, t, ht, hb⟩ := run_bind_ok_iff.1 hu
  obtain ⟨⟨t₀, ht₀, hm⟩, hi⟩ := h hs ht
  obtain ⟨⟨u₀, hu₀, hm'⟩, hi'⟩ := hf a hm hb
  exact ⟨⟨u₀, run_bind_ok_iff.2 ⟨a, t₀, ht₀, hu₀⟩, hm'⟩, hi'.trans hi⟩

/-- Whatever an action that fails with values does during key generation, it is mirrored. -/
theorem Mirrored.of_fails {act₀ act : Synth α} (h : ∀ s : Layout, s.mode ≠ .setup → Fails act s) :
    Mirrored act₀ act :=
  fun _ _ hs _ _ ht ↦ absurd ht (h _ hs.valued).not_ok

/-- A failure is mirrored by everything. -/
theorem Mirrored.throw (act₀ : Synth α) (e : Error) : Mirrored act₀ (MonadExcept.throw e) :=
  .of_fails fun _ _ ↦ .throw e

/-- A computation that does not look at the layout is mirrored. -/
theorem Mirrored.ofExcept (r : Except Error α) :
    Mirrored (liftM r : Synth α) (liftM r) := by
  cases r with
  | error e => exact .of_fails fun _ _ ↦ .ofExcept rfl
  | ok a => exact .pure a

/-- Reading the layout first is mirrored when what follows is, whatever was read. -/
theorem Mirrored.get {f₀ f : Layout → Synth α}
    (h : ∀ s₀ s : Layout, s₀.Mirrors s → Mirrored (f₀ s₀) (f s)) :
    Mirrored (MonadState.get >>= f₀) (MonadState.get >>= f) := by
  intro s₀ s hs a t ht
  rw [run_bind, run_get] at ht
  obtain ⟨⟨t₀, ht₀, hm⟩, hi⟩ := h s₀ s hs hs ht
  exact ⟨⟨t₀, by rw [run_bind, run_get]; exact ht₀, hm⟩, hi⟩

/-- Actions for the elements of related lists are mirrored. -/
theorem Mirrored.mapM {r : α → α → Prop} {f₀ f : α → Synth β}
    (hf : ∀ x₀ x, r x₀ x → Mirrored (f₀ x₀) (f x)) {xs₀ xs : List α}
    (h : List.Forall₂ r xs₀ xs) : Mirrored (xs₀.mapM f₀) (xs.mapM f) := by
  induction h with
  | nil => exact .pure []
  | cons hx _ ih =>
    rw [List.mapM_cons, List.mapM_cons]
    exact (hf _ _ hx).bind fun y ↦ ih.bind fun ys ↦ .pure (y :: ys)

/-- An action for the elements of a list is mirrored when it is for each of them. -/
theorem Mirrored.mapM_self {f : α → Synth β} (hf : ∀ x, Mirrored (f x) (f x)) (xs : List α) :
    Mirrored (xs.mapM f) (xs.mapM f) :=
  .mapM (r := Eq) (fun _ _ h ↦ h ▸ hf _) (List.forall₂_eq_eq_eq ▸ rfl)

/-- An action for the elements of a list is mirrored when it is for each of them. -/
theorem Mirrored.forM_self {f : α → Synth Unit} (hf : ∀ x, Mirrored (f x) (f x)) (xs : List α) :
    Mirrored (xs.forM f) (xs.forM f) := by
  induction xs with
  | nil => exact .pure ()
  | cons x xs ih => exact (hf x).bind fun _ ↦ ih

/-- Actions for the places of an octet are mirrored. -/
theorem Mirrored.octet {f₀ f : α → Synth β} {o₀ o : Octet α}
    (hf : List.Forall₂ (fun x₀ x ↦ Mirrored (f₀ x₀) (f x)) o₀.toList o.toList) :
    Mirrored (o₀.mapM f₀) (o.mapM f) := by
  simp only [Octet.toList, List.forall₂_cons, List.Forall₂.nil, and_true] at hf
  obtain ⟨h0, h1, h2, h3, h4, h5, h6, h7⟩ := hf
  exact h0.bind fun _ ↦ h1.bind fun _ ↦ h2.bind fun _ ↦ h3.bind fun _ ↦ h4.bind fun _ ↦
    h5.bind fun _ ↦ h6.bind fun _ ↦ h7.bind fun _ ↦ .pure _

/-- Reserving a witness needs no value during key generation. -/
theorem newWitness_mirrored (v₀ v : Option Fr) : Mirrored (newWitness v₀) (newWitness v) := by
  cases v with
  | none => exact .of_fails fun _ ↦ newWitness_fails
  | some x =>
    intro s₀ s hs a t ht
    rw [run_newWitness hs.valued] at ht
    obtain ⟨ha, rfl⟩ := Prod.mk.inj ht
    obtain rfl := Except.ok.inj ha
    refine ⟨⟨{ s₀ with witnesses := s₀.witnesses + 1 }, ?_, hs.setup, hs.valued, hs.inputs,
      congrArg (· + 1) hs.witnesses, hs.gates⟩, rfl⟩
    have hm : (modifyGet fun s : Layout ↦
        ((s.mode, s.witnesses), { s with witnesses := s.witnesses + 1 }) : Synth _).run s₀
          = (.ok (s₀.mode, s₀.witnesses), { s₀ with witnesses := s₀.witnesses + 1 }) := rfl
    rw [newWitness, run_bind, hm, ← hs.witnesses, hs.setup]
    rfl

/-- Putting a gate on the layout is mirrored. -/
theorem constrain_mirrored (g : Gate) : Mirrored (constrain g) (constrain g) := by
  intro s₀ s hs a t ht
  obtain ⟨ha, rfl⟩ := Prod.mk.inj ht
  obtain rfl := Except.ok.inj ha
  exact ⟨⟨{ s₀ with gates := s₀.gates.push g }, rfl, hs.setup, hs.valued, hs.inputs, hs.witnesses,
    congrArg (·.push g) hs.gates⟩, rfl⟩

/-- Demanding that two forms are equal is mirrored. -/
theorem equate_mirrored (a b : Form) : Mirrored (equate a b) (equate a b) := by
  rw [equate]
  split
  · exact .pure ()
  · split <;> exact constrain_mirrored _

end Synth

open Synth

namespace Bit

/-- A witness bit is mirrored by one without a value. -/
theorem alloc_mirrored (v₀ v : Option Bool) :
    Mirrored (alloc .witness v₀) (alloc .witness v) :=
  (newWitness_mirrored _ _).bind fun _ ↦ (constrain_mirrored _).bind fun _ ↦ .pure _

/-- A choice between bits is mirrored. -/
theorem select_mirrored (which yes no : Bit) :
    Mirrored (select which yes no) (select which yes no) := by
  have hnew : Mirrored
      (do
        let s ← get
        let c ← newWitness ((chosen? s which yes no).map scalarOfBool)
        constrain (.product which.form (yes.form.sub no.form) ((Form.column c).sub no.form))
        pure (Bit.wire c false))
      (do
        let s ← get
        let c ← newWitness ((chosen? s which yes no).map scalarOfBool)
        constrain (.product which.form (yes.form.sub no.form) ((Form.column c).sub no.form))
        pure (Bit.wire c false)) :=
    .get fun _ _ _ ↦ (newWitness_mirrored _ _).bind fun _ ↦
      (constrain_mirrored _).bind fun _ ↦ .pure _
  cases which with
  | constant b => exact .pure _
  | wire c negated =>
    cases yes with
    | wire _ _ => exact hnew
    | constant y =>
      cases no with
      | wire _ _ => exact hnew
      | constant n => exact .pure _

/-- A demand on a bit is mirrored. -/
theorem demand_mirrored (expected : Bool) (b : Bit) :
    Mirrored (b.demand expected) (b.demand expected) := by
  cases b with
  | constant v =>
    rw [demand]
    split
    · exact .pure ()
    · exact .throw _ _
  | wire c n => exact constrain_mirrored _

end Bit

namespace Byte

/-- A witness byte is mirrored by one without a value. -/
theorem alloc_mirrored (v₀ v : Option UInt8) :
    Mirrored (alloc .witness v₀) (alloc .witness v) :=
  .octet (List.forall₂_iff_get.2 ⟨rfl, fun _ _ _ ↦ Bit.alloc_mirrored _ _⟩)

/-- A choice between bytes is mirrored. -/
theorem select_mirrored (which : Bit) (yes no : Byte) :
    Mirrored (select which yes no) (select which yes no) :=
  .octet (List.forall₂_same.2 fun _ _ ↦ Bit.select_mirrored which _ _)

/-- A comparison of bytes is mirrored. -/
theorem demandEqual_mirrored (a b : Byte) : Mirrored (demandEqual a b) (demandEqual a b) := by
  rw [demandEqual]
  split
  · exact .pure ()
  · exact equate_mirrored _ _

/-- Witness bytes are mirrored by as many without values, or with others. -/
theorem allocAll_mirrored {length : Nat} {v₀ v : Option Bytes}
    (h₀ : ∀ xs, v₀ = some xs → xs.length = length) :
    Mirrored (allocAll .witness length v₀) (allocAll .witness length v) := by
  by_cases h : ∀ xs, v = some xs → xs.length = length
  · have he (w : Option Bytes) (hw : ∀ xs, w = some xs → xs.length = length) :
        allocAll .witness length w = (optionalBytes length w).mapM (alloc .witness) := by
      cases w with
      | none => rfl
      | some xs => simp [allocAll, hw xs rfl]
    rw [he v₀ h₀, he v h]
    refine .mapM (r := fun _ _ ↦ True) (fun _ _ _ ↦ alloc_mirrored _ _) ?_
    exact List.forall₂_iff_get.2
      ⟨(length_optionalBytes h₀).trans (length_optionalBytes h).symm, fun _ _ _ ↦ trivial⟩
  · obtain ⟨xs, rfl, hl⟩ : ∃ xs, v = some xs ∧ xs.length ≠ length := by simpa using h
    exact .of_fails fun _ _ ↦ allocAll_fails_of_length hl

/-- A comparison of byte strings is mirrored. -/
theorem demandAllEqual_mirrored (as bs : List Byte) :
    Mirrored (demandAllEqual as bs) (demandAllEqual as bs) := by
  rw [demandAllEqual]
  split
  · exact (Mirrored.throw _ _).bind fun _ ↦ .forM_self (fun _ ↦ demandEqual_mirrored _ _) _
  · exact .forM_self (fun _ ↦ demandEqual_mirrored _ _) _

/-- A constant byte stands for the same value in all layouts. -/
private theorem exists_byteIs_of_isConstant {b : Byte} (h : b.isConstant = true) :
    ∃ x, ∀ s : Layout, s.ByteIs b x := by
  have hbit {c : Bit} (hc : c.isConstant = true) : ∃ v, ∀ s : Layout, s.BitIs c v := by
    cases c with
    | constant v => exact ⟨v, fun _ ↦ bitIs_constant v⟩
    | wire _ _ => simp [Bit.isConstant] at hc
  simp only [isConstant, Octet.toList, List.all_cons, List.all_nil, Bool.and_true,
    Bool.and_eq_true] at h
  obtain ⟨h0, h1, h2, h3, h4, h5, h6, h7⟩ := h
  obtain ⟨⟨v0, h0⟩, ⟨v1, h1⟩, ⟨v2, h2⟩, ⟨v3, h3⟩⟩ := And.intro (hbit h0)
    (And.intro (hbit h1) (And.intro (hbit h2) (hbit h3)))
  obtain ⟨⟨v4, h4⟩, ⟨v5, h5⟩, ⟨v6, h6⟩, ⟨v7, h7⟩⟩ := And.intro (hbit h4)
    (And.intro (hbit h5) (And.intro (hbit h6) (hbit h7)))
  refine ⟨Octet.toByte ⟨v0, v1, v2, v3, v4, v5, v6, v7⟩, fun s ↦ ?_⟩
  rw [ByteIs, Octet.ofByte_toByte]
  exact .cons (h0 s) (.cons (h1 s) (.cons (h2 s) (.cons (h3 s) (.cons (h4 s) (.cons (h5 s)
    (.cons (h6 s) (.cons (h7 s) .nil)))))))

/-- Constant bytes stand for the same byte string in all layouts. -/
theorem exists_bytesAre_of_isConstant {bs : List Byte} (h : bs.all isConstant = true) :
    ∃ xs, ∀ s : Layout, s.BytesAre bs xs := by
  induction bs with
  | nil => exact ⟨[], fun _ ↦ .nil⟩
  | cons b bs ih =>
    rw [List.all_cons, Bool.and_eq_true] at h
    obtain ⟨x, hx⟩ := exists_byteIs_of_isConstant h.1
    obtain ⟨xs, hxs⟩ := ih h.2
    exact ⟨x :: xs, fun s ↦ .cons (hx s) (hxs s)⟩

end Byte

namespace Synth

/-- Witnesses for a byte are mirrored by ones without a value. -/
private theorem witnessByte_mirrored (v₀ v : Option UInt8) :
    Mirrored (witnessByte v₀) (witnessByte v) :=
  .octet (List.forall₂_iff_get.2 ⟨rfl, fun _ _ _ ↦
    (newWitness_mirrored _ _).bind fun _ ↦ .pure _⟩)

/-- Hashing is mirrored: whether a digest is a constant depends on the message alone. -/
theorem sha256_mirrored (message : List Byte) : Mirrored (sha256 message) (sha256 message) := by
  -- Witnesses for a digest under its gate, which need no values during key generation.
  have hnew (d₀ d : Option Word) : Mirrored
      (do
        let bytes ← (Byte.optionalBytes Word.size (d₀.map Word.bytes)).mapM witnessByte
        constrain (.digest message bytes)
        Node.ofBytes bytes)
      (do
        let bytes ← (Byte.optionalBytes Word.size (d.map Word.bytes)).mapM witnessByte
        constrain (.digest message bytes)
        Node.ofBytes bytes) := by
    refine (Mirrored.mapM (r := fun _ _ ↦ True) (fun _ _ _ ↦ witnessByte_mirrored _ _) ?_).bind
      fun bytes ↦ (constrain_mirrored _).bind fun _ ↦ .ofExcept _
    exact List.forall₂_iff_get.2 ⟨(Byte.length_optionalBytes_word d₀).trans
      (Byte.length_optionalBytes_word d).symm, fun _ _ _ ↦ trivial⟩
  refine .get fun s₀ s hs ↦ ?_
  cases hc : message.all Byte.isConstant with
  | true =>
    obtain ⟨xs, hxs⟩ := Byte.exists_bytesAre_of_isConstant hc
    simp only [(hxs s₀).bytes?, (hxs s).bytes?, Option.map_some]
    exact .pure _
  | false =>
    simp only [hs.setup, ne_eq, not_true_eq_false, false_and, ↓reduceIte]
    split
    · exact .of_fails fun _ _ ↦ .throw _
    · exact hnew _ _

/-- Hashing two nodes is mirrored. -/
theorem sha256Pair_mirrored (a b : Node) : Mirrored (sha256Pair a b) (sha256Pair a b) :=
  sha256_mirrored _

end Synth

namespace Node

/-- A witness node is mirrored by one without a value. -/
theorem alloc_mirrored (v₀ v : Option Word) :
    Mirrored (alloc .witness v₀) (alloc .witness v) := by
  refine (Byte.allocAll_mirrored fun xs hx ↦ ?_).bind fun bs ↦ .ofExcept (ofBytes bs)
  obtain ⟨w, -, rfl⟩ := Option.map_eq_some_iff.1 hx
  exact w.length_bytes

/-- A choice between nodes is mirrored. -/
theorem select_mirrored (which : Bit) (yes no : Node) :
    Mirrored (select which yes no) (select which yes no) :=
  (Mirrored.mapM_self (fun _ ↦ Byte.select_mirrored which _ _) _).bind fun bs ↦
    .ofExcept (ofBytes bs)

/-- The walk with the bits of an index is mirrored. -/
theorem climbBits_mirrored (node : Node) (path : List Node) (bits : List Bit) :
    Mirrored (climbBits node path bits) (climbBits node path bits) := by
  induction path generalizing node bits with
  | nil => exact .pure node
  | cons sibling path ih =>
    cases bits with
    | nil => exact .pure node
    | cons isRight bits =>
      exact (sha256Pair_mirrored _ _).bind fun _ ↦ (sha256Pair_mirrored _ _).bind fun _ ↦
        (select_mirrored _ _ _).bind fun _ ↦ ih _ _

/-- The demand on the depth of an index is mirrored. -/
theorem demandDepth_mirrored (g : Index) (depth : Nat) :
    Mirrored (demandDepth g depth) (demandDepth g depth) := by
  rw [demandDepth]
  split
  · exact .pure ()
  · exact (Bit.demand_mirrored _ _).bind fun _ ↦ .forM_self (Bit.demand_mirrored false) _

/-- Restoring a root with an index inside the circuit is mirrored. -/
theorem restoreAt_mirrored (leaf : Node) (path : List Node) (g : Index) :
    Mirrored (restoreAt leaf path g) (restoreAt leaf path g) := by
  rw [restoreAt]
  split
  · exact (Mirrored.throw _ _).bind fun _ ↦ (demandDepth_mirrored _ _).bind fun _ ↦
      climbBits_mirrored _ _ _
  · exact (demandDepth_mirrored _ _).bind fun _ ↦ climbBits_mirrored _ _ _

/-- Verifying a path with an index inside the circuit is mirrored. -/
theorem verifyAt_mirrored (root leaf : Node) (path : List Node) (g : Index) :
    Mirrored (verifyAt root leaf path g) (verifyAt root leaf path g) :=
  (restoreAt_mirrored _ _ _).bind fun _ ↦ Byte.demandAllEqual_mirrored _ _

/-- The parents of neighbouring nodes are mirrored. -/
theorem parents_mirrored : (layer : List Node) → Mirrored (parents layer) (parents layer)
  | [] | [_] => .pure []
  | _ :: _ :: rest =>
    (sha256Pair_mirrored _ _).bind fun _ ↦ (parents_mirrored rest).bind fun _ ↦ .pure _

/-- A layer above nodes is mirrored. -/
theorem layerAbove_mirrored (levels : Nat) (layer : List Node) :
    Mirrored (layerAbove levels layer) (layerAbove levels layer) := by
  induction levels generalizing layer with
  | zero => exact .pure layer
  | succ levels ih => exact (parents_mirrored layer).bind fun _ ↦ ih _

/-- The root over nodes is mirrored. -/
theorem root_mirrored (leaves : List Node) (count : Nat) :
    Mirrored (root leaves count) (root leaves count) := by
  have hfail (e : Error) {k : Unit → Synth Node} : Mirrored (throw e >>= k) (throw e >>= k) :=
    .of_fails fun _ _ ↦ Fails.bind (.throw e)
  rw [root]
  split
  · exact hfail _
  · split
    · exact hfail _
    · exact (layerAbove_mirrored _ _).bind fun _ ↦ .pure _

end Node

namespace Synth

/-- A public input that is reserved with a value is reserved during key generation as well. -/
theorem newInput_mirrors {s₀ s t : Layout} (h : s₀.Mirrors s) (v₀ : Option Fr) {v : Option Fr}
    {c : Column} (ht : (newInput v).run s = (.ok c, t)) :
    ∃ t₀, (newInput v₀).run s₀ = (.ok c, t₀) ∧ t₀.Mirrors t ∧ t.inputs = s.inputs + 1 := by
  cases v with
  | none => exact absurd ht (newInput_fails h.valued).not_ok
  | some x =>
    rw [run_newInput h.valued] at ht
    obtain ⟨hc, rfl⟩ := Prod.mk.inj ht
    obtain rfl := Except.ok.inj hc
    refine ⟨{ s₀ with inputs := s₀.inputs + 1 }, ?_, ⟨h.setup, h.valued,
      congrArg (· + 1) h.inputs, h.witnesses, h.gates⟩, rfl⟩
    have hm : (modifyGet fun s : Layout ↦
        ((s.mode, s.inputs), { s with inputs := s.inputs + 1 }) : Synth _).run s₀
          = (.ok (s₀.mode, s₀.inputs), { s₀ with inputs := s₀.inputs + 1 }) := rfl
    rw [newInput, run_bind, hm, ← h.inputs, h.setup]
    rfl

end Synth

end TreeProver.Circuit
