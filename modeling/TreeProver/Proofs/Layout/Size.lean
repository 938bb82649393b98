import TreeProver.Circuit.Committed
import TreeProver.Circuit.Path
import TreeProver.Proofs.Layout.Growth
import TreeProver.Proofs.Lowering.Size

/-!
# How much is laid out

Every action lays out gates that take at most so many rows, whether it succeeds or not and whatever
the values are. The sizes add up along a circuit, so they bound its system before it is laid out.
-/

namespace TreeProver.Circuit

open Lower Synth

variable {α β : Type}

namespace Layout

/-- The number of rows that the gates of a layout take at most. -/
def rowBound (s : Layout) : Nat := (s.gates.toList.map rowsOf).sum

/-- The system of a layout has at most so many constraints. -/
theorem constraints_le (s : Layout) : s.toR1cs.constraints ≤ s.rowBound := by
  have h := s.size_lower_le.1
  simpa [toR1cs, R1cs.ofRows, rowBound] using h

end Layout

/-- The number of rows that a digest takes at most, for a message of the given length. -/
def digestRows (length : Nat) : Nat := Sha256.blockCount length * rowsPerBlock + 256

namespace Synth

/-- The action lays out gates of at most `n` rows, and what it gives satisfies `P`. -/
def Adds (n : Nat) (P : α → Prop) (act : Synth α) : Prop :=
  ∀ s : Layout, (act.run s).2.rowBound ≤ s.rowBound + n ∧ ∀ a, (act.run s).1 = .ok a → P a

/-- Doing nothing lays nothing out. -/
theorem Adds.pure {P : α → Prop} {a : α} (h : P a) : Adds 0 P (Pure.pure a) :=
  fun _ ↦ ⟨Nat.le_refl _, fun _ ha ↦ Except.ok.inj ha ▸ h⟩

/-- A failure lays nothing out. -/
theorem Adds.throw {P : α → Prop} (e : Error) : Adds 0 P (MonadExcept.throw e : Synth α) :=
  fun _ ↦ ⟨Nat.le_refl _, by rintro _ ⟨⟩⟩

/-- A computation that does not look at the layout lays nothing out. -/
theorem Adds.ofExcept {P : α → Prop} {r : Except Error α} (h : ∀ a, r = .ok a → P a) :
    Adds 0 P (liftM r : Synth α) := by
  cases r with
  | error e => exact .throw e
  | ok a => exact .pure (h a rfl)

/-- A sequence lays out at most what its parts do. -/
theorem Adds.bind {m n : Nat} {P : α → Prop} {Q : β → Prop} {act : Synth α} {f : α → Synth β}
    (h : Adds m P act) (hf : ∀ a, P a → Adds n Q (f a)) : Adds (m + n) Q (act >>= f) := by
  intro s
  obtain ⟨hm, ha⟩ := h s
  rw [run_bind]
  rcases hr : act.run s with ⟨e | a, t⟩
  · rw [hr] at hm
    exact ⟨Nat.le_trans hm (by omega), by rintro _ ⟨⟩⟩
  · simp only [hr] at hm ha
    obtain ⟨hn, hb⟩ := hf a (ha a rfl) t
    exact ⟨Nat.le_trans hn (by omega), hb⟩

/-- A bound may be larger, and say less about what comes out. -/
theorem Adds.mono {m n : Nat} {P Q : α → Prop} {act : Synth α} (h : Adds m P act) (hn : m ≤ n)
    (hq : ∀ a, P a → Q a) : Adds n Q act := by
  intro s
  obtain ⟨hm, ha⟩ := h s
  exact ⟨by omega, fun a hr ↦ hq a (ha a hr)⟩

/-- A bound may be larger. -/
theorem Adds.le {m n : Nat} {P : α → Prop} {act : Synth α} (h : Adds m P act) (hn : m ≤ n) :
    Adds n P act := h.mono hn fun _ ha ↦ ha

/-- Reading the layout first lays nothing out. -/
theorem Adds.get {n : Nat} {P : α → Prop} {f : Layout → Synth α} (h : ∀ s, Adds n P (f s)) :
    Adds n P (MonadState.get >>= f) := by
  intro s
  rw [run_bind, run_get]
  exact h s s

/-- An action for every element of a list lays out at most so many rows for each of them. -/
theorem Adds.mapM {n : Nat} {P : β → Prop} {f : α → Synth β} {xs : List α}
    (hf : ∀ x ∈ xs, Adds n P (f x)) :
    Adds (xs.length * n) (fun ys ↦ ys.length = xs.length ∧ ∀ y ∈ ys, P y) (xs.mapM f) := by
  induction xs with
  | nil => exact (Adds.pure ⟨rfl, by simp⟩).le (by simp)
  | cons x xs ih =>
    rw [List.mapM_cons]
    refine ((hf x (by simp)).bind fun y hy ↦ (ih fun x hx ↦ hf x (by simp [hx])).bind fun ys hys ↦
      Adds.pure (P := fun zs : List β ↦ zs.length = xs.length + 1 ∧ ∀ z ∈ zs, P z) ?_).le ?_
    · exact ⟨by simp [hys.1], List.forall_mem_cons.2 ⟨hy, hys.2⟩⟩
    · rw [List.length_cons, Nat.succ_mul]
      omega

/-- An action for every element of a list lays out at most so many rows for each of them. -/
theorem Adds.forM {n : Nat} {f : α → Synth Unit} {xs : List α}
    (hf : ∀ x ∈ xs, Adds n (fun _ ↦ True) (f x)) :
    Adds (xs.length * n) (fun _ ↦ True) (xs.forM f) := by
  induction xs with
  | nil => exact (Adds.pure trivial).le (by simp)
  | cons x xs ih =>
    refine ((hf x (by simp)).bind fun _ _ ↦ ih fun x hx ↦ hf x (by simp [hx])).le ?_
    rw [List.length_cons, Nat.succ_mul]
    omega

/-- Actions for the places of an octet lay out at most eight times as many rows. -/
theorem Adds.octet {n : Nat} {f : α → Synth β} (hf : ∀ x, Adds n (fun _ ↦ True) (f x))
    (o : Octet α) : Adds (8 * n) (fun _ ↦ True) (o.mapM f) := by
  refine ((hf o.b0).bind fun _ _ ↦ (hf o.b1).bind fun _ _ ↦ (hf o.b2).bind fun _ _ ↦
    (hf o.b3).bind fun _ _ ↦ (hf o.b4).bind fun _ _ ↦ (hf o.b5).bind fun _ _ ↦
    (hf o.b6).bind fun _ _ ↦ (hf o.b7).bind fun _ _ ↦ Adds.pure trivial).le ?_
  omega

/-- Reserving a column lays out no gate. -/
theorem newWitness_adds (v : Option Fr) : Adds 0 (fun _ ↦ True) (newWitness v) := by
  intro s
  refine ⟨Nat.le_of_eq ?_, fun _ _ ↦ trivial⟩
  obtain ⟨mode, inputs, witnesses, inputValues, witnessValues, gates⟩ := s
  cases mode <;> cases v <;> rfl

/-- Reserving a public input lays out no gate. -/
theorem newInput_adds (v : Option Fr) : Adds 0 (fun _ ↦ True) (newInput v) := by
  intro s
  refine ⟨Nat.le_of_eq ?_, fun _ _ ↦ trivial⟩
  obtain ⟨mode, inputs, witnesses, inputValues, witnessValues, gates⟩ := s
  cases mode <;> cases v <;> rfl

/-- A gate adds its rows. -/
theorem constrain_adds (g : Gate) : Adds (rowsOf g) (fun _ ↦ True) (constrain g) := by
  refine fun s ↦ ⟨Nat.le_of_eq ?_, fun _ _ ↦ trivial⟩
  have hr : ((constrain g).run s).2 = { s with gates := s.gates.push g } := rfl
  simp [hr, Layout.rowBound]

/-- A product gate adds one row. -/
theorem constrain_product_adds (a b c : Form) :
    Adds 1 (fun _ ↦ True) (constrain (.product a b c)) := constrain_adds _

/-- A comparison of forms adds at most one row. -/
theorem equate_adds (a b : Form) : Adds 1 (fun _ ↦ True) (equate a b) := by
  rw [equate]
  split
  · exact (Adds.pure trivial).le (by decide)
  · split <;> exact constrain_product_adds _ _ _

end Synth

namespace Bit

/-- A witness bit takes one row. -/
theorem alloc_adds (v : Option Bool) : Adds 1 (fun _ ↦ True) (alloc .witness v) :=
  ((newWitness_adds _).bind fun _ _ ↦ (constrain_product_adds _ _ _).bind fun _ _ ↦
    Adds.pure trivial).le (by decide)

/-- A choice between bits takes at most one row. -/
theorem select_adds (which yes no : Bit) : Adds 1 (fun _ ↦ True) (select which yes no) := by
  have hpure (b : Bit) : Adds 1 (fun _ ↦ True) (Pure.pure b) := (Adds.pure trivial).le (by decide)
  have hnew : Adds 1 (fun _ ↦ True) (do
      let s ← get
      let c ← newWitness ((chosen? s which yes no).map scalarOfBool)
      constrain (.product which.form (yes.form.sub no.form) ((Form.column c).sub no.form))
      Pure.pure (Bit.wire c false)) :=
    .get fun _ ↦ ((newWitness_adds _).bind fun _ _ ↦ (constrain_product_adds _ _ _).bind fun _ _ ↦
      Adds.pure trivial).le (by decide)
  cases which with
  | constant b => exact hpure _
  | wire c negated =>
    cases yes with
    | wire _ _ => exact hnew
    | constant y =>
      cases no with
      | wire _ _ => exact hnew
      | constant n => exact hpure _

/-- A demand on a bit takes at most one row. -/
theorem demand_adds (expected : Bool) (b : Bit) : Adds 1 (fun _ ↦ True) (b.demand expected) := by
  cases b with
  | constant v =>
    rw [demand]
    split
    · exact (Adds.pure trivial).le (by decide)
    · exact (Adds.throw _).le (by decide)
  | wire c n => exact constrain_product_adds _ _ _

end Bit

namespace Byte

/-- A witness byte takes eight rows. -/
theorem alloc_adds (v : Option UInt8) : Adds 8 (fun _ ↦ True) (alloc .witness v) :=
  .octet Bit.alloc_adds _

/-- A choice between bytes takes at most eight rows. -/
theorem select_adds (which : Bit) (yes no : Byte) :
    Adds 8 (fun _ ↦ True) (select which yes no) := .octet (fun _ ↦ Bit.select_adds which _ _) _

/-- Witness bytes take eight rows each. -/
theorem allocAll_adds (length : Nat) (v : Option Bytes) :
    Adds (length * 8) (fun bs ↦ bs.length = length) (allocAll .witness length v) := by
  have hall {vs : List (Option UInt8)} (hl : vs.length = length) :
      Adds (length * 8) (fun bs : List Byte ↦ bs.length = length) (vs.mapM (alloc .witness)) :=
    hl ▸ (Adds.mapM fun _ _ ↦ alloc_adds _).mono (Nat.le_refl _) fun _ h ↦ h.1
  cases v with
  | none => exact hall (by simp [optionalBytes])
  | some xs =>
    by_cases h : xs.length = length
    · simp only [allocAll, h, ne_eq, not_true_eq_false, ↓reduceIte]
      exact hall (by simp [optionalBytes, h])
    · simp only [allocAll, h, ne_eq, not_false_eq_true, ↓reduceIte]
      exact ((Adds.throw (P := fun _ ↦ False) _).bind (n := 0) fun _ h ↦ h.elim).le (by omega)

/-- A comparison of bytes takes at most one row. -/
theorem demandEqual_adds (a b : Byte) : Adds 1 (fun _ ↦ True) (demandEqual a b) := by
  rw [demandEqual]
  split
  · exact (Adds.pure trivial).le (by decide)
  · exact equate_adds _ _

/-- A comparison of byte strings takes at most one row for each byte. -/
theorem demandAllEqual_adds (as bs : List Byte) :
    Adds as.length (fun _ ↦ True) (demandAllEqual as bs) := by
  have hzip : Adds as.length (fun _ ↦ True) ((as.zip bs).forM fun p ↦ demandEqual p.1 p.2) := by
    have hall : ∀ p ∈ as.zip bs, Adds 1 (fun _ ↦ True) (demandEqual p.1 p.2) :=
      fun p _ ↦ demandEqual_adds p.1 p.2
    refine (Adds.forM hall).le ?_
    rw [List.length_zip]
    omega
  rw [demandAllEqual]
  split
  · exact ((Adds.throw (P := fun _ ↦ True) _).bind fun _ _ ↦ hzip).le (by omega)
  · exact hzip

end Byte

namespace Synth

/-- A digest takes the rows of its gate at most. -/
theorem sha256_adds (message : List Byte) :
    Adds (digestRows message.length) (fun _ ↦ True) (sha256 message) := by
  have hbyte (v : Option UInt8) : Adds 0 (fun _ ↦ True) (witnessByte v) :=
    Adds.octet (n := 0) (fun _ ↦ (newWitness_adds _).bind fun _ _ ↦ Adds.pure trivial) _
  have hnew (d : Option Word) : Adds (digestRows message.length) (fun _ ↦ True) (do
      let bytes ← (Byte.optionalBytes Word.size (d.map Word.bytes)).mapM witnessByte
      constrain (.digest message bytes)
      liftM (Node.ofBytes bytes)) := by
    refine ((Adds.mapM fun v _ ↦ hbyte v).bind (n := digestRows message.length)
      fun bytes hb ↦ ?_).le (by omega)
    have hg : rowsOf (.digest message bytes) = digestRows message.length := by
      rw [rowsOf, digestRows, hb.1, Byte.length_optionalBytes_word, Word.size]
    exact ((hg ▸ constrain_adds _).bind fun _ _ ↦ Adds.ofExcept fun _ _ ↦ trivial).le (by omega)
  refine .get fun s ↦ ?_
  dsimp only
  split
  · exact (Adds.pure trivial).le (by omega)
  · split
    · exact (Adds.throw _).le (by omega)
    · exact hnew _

/-- A parent takes the rows of a digest of two nodes at most. -/
theorem sha256Pair_adds (a b : Node) : Adds (digestRows 64) (fun _ ↦ True) (sha256Pair a b) := by
  have h := sha256_adds (a.bytes ++ b.bytes)
  rwa [List.length_append, a.length_bytes, b.length_bytes] at h

/-- A commitment takes the rows of a digest at most. -/
theorem commitment_adds (message : List Byte) (bits : Nat) :
    Adds (digestRows message.length) (fun _ ↦ True) (commitment message bits) :=
  ((sha256_adds message).bind fun _ _ ↦ Adds.pure trivial).le (by omega)

end Synth

namespace Node

/-- A witness node takes 256 rows. -/
theorem alloc_adds (v : Option Word) : Adds 256 (fun _ ↦ True) (alloc .witness v) :=
  ((Byte.allocAll_adds _ _).bind fun _ _ ↦ Adds.ofExcept fun _ _ ↦ trivial).le (Nat.le_refl 256)

/-- A choice between nodes takes at most 256 rows. -/
theorem select_adds (which : Bit) (yes no : Node) :
    Adds 256 (fun _ ↦ True) (select which yes no) := by
  have hl : (yes.bytes.zip no.bytes).length = 32 := by
    rw [List.length_zip, yes.length_bytes, no.length_bytes, Nat.min_self]
  have hbytes : ∀ p ∈ yes.bytes.zip no.bytes,
      Adds 8 (fun _ ↦ True) (Byte.select which p.1 p.2) := fun p _ ↦ Byte.select_adds which p.1 p.2
  refine ((Adds.mapM hbytes).bind fun _ _ ↦ Adds.ofExcept fun _ _ ↦ trivial).le ?_
  rw [hl]

/-- The number of rows that a level of a path takes at most. -/
def levelRows : Nat := digestRows 64 + (digestRows 64 + 256)

/-- The walk with the bits of an index takes at most so many rows for each level. -/
theorem climbBits_adds (node : Node) (path : List Node) (bits : List Bit) :
    Adds (path.length * levelRows) (fun _ ↦ True) (climbBits node path bits) := by
  induction path generalizing node bits with
  | nil => exact (Adds.pure trivial).le (by omega)
  | cons sibling path ih =>
    cases bits with
    | nil => exact (Adds.pure trivial).le (by omega)
    | cons isRight bits =>
      have hrest (right left : Node) : Adds (256 + path.length * levelRows) (fun _ ↦ True)
          (select isRight right left >>= fun parent ↦ climbBits parent path bits) :=
        (select_adds _ _ _).bind fun _ _ ↦ ih _ _
      have hlevel := (sha256Pair_adds sibling node).bind fun right _ ↦
        (sha256Pair_adds node sibling).bind fun left _ ↦ hrest right left
      rw [climbBits]
      refine hlevel.le ?_
      have hr : levelRows = digestRows 64 + (digestRows 64 + 256) := rfl
      rw [List.length_cons, Nat.succ_mul]
      -- The numbers of rows are kept from being computed.
      generalize levelRows = r at hr ⊢
      generalize digestRows 64 = d at hr ⊢
      omega

/-- The demand on the depth of an index takes at most 64 rows. -/
theorem demandDepth_adds (g : Index) (depth : Nat) :
    Adds 64 (fun _ ↦ True) (demandDepth g depth) := by
  have hl : (g.bits.drop depth).length ≤ 64 := by
    rw [List.length_drop, g.length_bits]
    omega
  rw [demandDepth]
  split
  · exact (Adds.pure trivial).le (by decide)
  · next mark above he =>
    rw [he, List.length_cons] at hl
    exact ((Bit.demand_adds _ _).bind fun _ _ ↦ Adds.forM fun b _ ↦ Bit.demand_adds false b).le
      (by omega)

/-- Verifying a path with an index inside the circuit takes at most so many rows. -/
theorem verifyAt_adds (root leaf : Node) (path : List Node) (g : Index) :
    Adds (64 + path.length * levelRows + 32) (fun _ ↦ True) (verifyAt root leaf path g) := by
  have hclimb : Adds (64 + path.length * levelRows) (fun _ ↦ True) (do
      demandDepth g path.length
      climbBits leaf path g.bits) :=
    (demandDepth_adds _ _).bind fun _ _ ↦ climbBits_adds _ _ _
  have hrestore : Adds (64 + path.length * levelRows) (fun _ ↦ True) (restoreAt leaf path g) := by
    rw [restoreAt]
    split
    · exact ((Adds.throw (P := fun _ ↦ True) _).bind fun _ _ ↦ hclimb).le (by omega)
    · exact hclimb
  have heq (a : Node) : Adds 32 (fun _ ↦ True) (Node.demandEqual root a) :=
    root.length_bytes ▸ Byte.demandAllEqual_adds _ _
  exact hrestore.bind fun a _ ↦ heq a

/-- The parents of neighbouring nodes take a digest each. -/
theorem parents_adds : (layer : List Node) →
    Adds (layer.length / 2 * digestRows 64) (fun above ↦ above.length = layer.length / 2)
      (parents layer)
  | [] => Adds.le (.pure (a := []) (by simp)) (Nat.zero_le _)
  | [_] => Adds.le (.pure (a := []) (by simp)) (Nat.zero_le _)
  | a :: b :: rest => by
    rw [parents]
    refine ((sha256Pair_adds a b).bind fun parent _ ↦ (parents_adds rest).bind fun above h ↦
      Adds.pure (P := fun above : List Node ↦ above.length = (rest.length + 1 + 1) / 2) ?_).le ?_
    · rw [List.length_cons, h]
      omega
    · have hd : (a :: b :: rest).length / 2 = rest.length / 2 + 1 := by
        rw [List.length_cons, List.length_cons]
        omega
      rw [hd, Nat.succ_mul]
      omega

/-- A layer above nodes takes at most a digest for each of them. -/
theorem layerAbove_adds (levels : Nat) (layer : List Node) :
    Adds (layer.length * digestRows 64) (fun _ ↦ True) (layerAbove levels layer) := by
  induction levels generalizing layer with
  | zero => exact (Adds.pure trivial).le (by omega)
  | succ levels ih =>
    refine ((parents_adds layer).bind (n := layer.length / 2 * digestRows 64) fun above h ↦
      h ▸ ih above).le ?_
    rw [← Nat.add_mul]
    exact Nat.mul_le_mul_right _ (by omega)

/-- The root over nodes takes at most a digest for each of them. -/
theorem root_adds (leaves : List Node) (count : Nat) :
    Adds (count * digestRows 64) (fun _ ↦ True) (root leaves count) := by
  have hfail (e : Error) {k : Unit → Synth Node} :
      Adds (count * digestRows 64) (fun _ ↦ True) (throw e >>= k) :=
    ((Adds.throw (P := fun _ ↦ False) e).bind (n := 0) fun _ h ↦ h.elim).le (by omega)
  rw [root]
  split
  · exact hfail _
  · split
    · exact hfail _
    · refine ((layerAbove_adds _ _).bind fun _ _ ↦ Adds.pure trivial).le ?_
      rw [List.length_take, Nat.add_zero]
      exact Nat.mul_le_mul_right _ (Nat.min_le_left _ _)

end Node

end TreeProver.Circuit
