import TreeProver.Proofs.Circuits.States
import TreeProver.Proofs.Layout.Root

/-!
# The list root circuit computes roots

Inside a circuit the root over nodes stands for the root over their words, whatever nodes follow. A
list root circuit that has been made is laid out in every mode, takes exactly the byte strings of as
many leaves as it is for, and computes their root; nothing that it demands can fail.
-/

namespace TreeProver

open Circuit Layout Synth

/-- The root over the first nodes that stand for words stands for the root over the first words, and
demands nothing. -/
theorem Circuit.Node.exists_root {s : Layout} (h : s.Filled) {nodes : List Node} {ws : List Word}
    {depth : Nat} (hn : List.Forall₂ s.NodeIs nodes ws) (hle : 2 ^ depth ≤ nodes.length) :
    ∃ node t r, (Node.root nodes (2 ^ depth)).run s = (.ok node, t) ∧
      Tree.root (ws.take (2 ^ depth)) = .ok r ∧ t.NodeIs node r ∧ (t.Satisfied ↔ s.Satisfied) := by
  have hlen : (ws.take (2 ^ depth)).length = 2 ^ depth := by
    rw [List.length_take, ← hn.length_eq]
    omega
  obtain ⟨node, t, ht, hr⟩ := Node.root_lays h hn (Tree.isPowerOfTwo_two_pow depth) hle
  rw [Nat.log2_two_pow] at hr
  refine ⟨node, t, _, ht.run, Tree.root_eq hlen, hr, ?_⟩
  rw [ht.grows.satisfied, and_iff_left trivial]

/-- Leaves side by side take 32 bytes each. -/
theorem LeafList.length_inputBytes (w : LeafList) :
    w.inputBytes.length = w.leaves.length * Word.size :=
  Word.length_flatMap_bytes w.leaves

namespace ListRootCircuit

variable {n : Nat} {c : ListRootCircuit}

/-- The words that are taken off leaves side by side are the leaves. -/
theorem wordsOf_inputBytes (w : LeafList) : wordsOf w.leaves.length w.inputBytes = w.leaves := by
  obtain ⟨leaves⟩ := w
  induction leaves with
  | nil => rfl
  | cons leaf leaves ih =>
    have htake : (leaf.bytes ++ leaves.flatMap Word.bytes).take Word.size = leaf.bytes :=
      List.take_left' leaf.length_bytes
    have hdrop : (leaf.bytes ++ leaves.flatMap Word.bytes).drop Word.size
        = leaves.flatMap Word.bytes := List.drop_left' leaf.length_bytes
    have hleaf : Word.ofBytes? leaf.bytes = some leaf := dif_pos leaf.length_bytes
    rw [LeafList.inputBytes, List.length_cons, List.flatMap_cons, wordsOf, htake, hdrop, hleaf]
    exact congrArg (leaf :: ·) ih

/-- A circuit takes every byte string of its size. -/
theorem Shaped.exists_assign (hc : Shaped n c) {input : Bytes} (hl : input.length = n * Word.size) :
    ∃ c', Computation.assign c input = .ok c' := by
  refine ⟨{ c with input := { c.input with values := some input } }, ?_⟩
  have hb := Buffer.assign_ok_iff.2 ⟨hl.trans hc.input.size.symm, rfl⟩
  simp only [Computation.assign, ListRootCircuit.assign, hb, bind, Except.bind]

/-- A statement refuses every byte string of another size, and is left as it was. -/
theorem Shaped.setInput_error {f : Committed ListRootCircuit} (hc : Shaped n f.computation)
    {input : Bytes} (hl : input.length ≠ n * Word.size) :
    f.setInput input
      = (.error (.invalidLength "byte wires" (n * Word.size) input.length), f) := by
  have hb : f.computation.input.assign input
      = .error (.invalidLength "byte wires" (n * Word.size) input.length) := by
    rw [Buffer.assign_of_ne (by rw [hc.input.size]; exact hl), hc.input.size]
  have ha : Computation.assign f.computation input
      = .error (.invalidLength "byte wires" (n * Word.size) input.length) := by
    simp only [Computation.assign, ListRootCircuit.assign, hb, bind, Except.bind]
  rw [Committed.setInput, ha]

/-- A circuit that has been made can be satisfied in some state. -/
theorem Shaped.satisfiable (hc : Shaped n c) : Satisfiable c := by
  obtain ⟨c', ha⟩ := hc.exists_assign (List.length_replicate (n := n * Word.size) (a := 0))
  exact ⟨c', True, _, _, hc.define_mirrored (hc.assign ha).1, hc.computes ha, trivial⟩

/-- Key generation lays a statement out, whether or not it has an input. -/
theorem Shaped.exists_setup {f : Committed ListRootCircuit} (hc : Shaped n f.computation) :
    ∃ s, f.layout .setup = .ok s := by
  obtain ⟨s₀, -, hl₀, -⟩ := hc.satisfiable.exists_setup
  exact ⟨s₀, hl₀⟩

/-- A statement about leaves takes them, computes their root, and is satisfied. -/
theorem Shaped.computes_root {f : Committed ListRootCircuit} (hc : Shaped n f.computation)
    (w : LeafList) (hl : w.leaves.length = n) :
    ∃ root g, Tree.root w.leaves = .ok root ∧ f.setInput w.inputBytes = (.ok (), g) ∧
      g.inputHash = some (hashAndTruncate w.inputBytes 253) ∧
      g.outputHash = some (hashAndTruncate root.bytes 253) ∧ g.output = .ok root.bytes ∧
      (∃ s, g.layout .setup = .ok s) ∧
      ∃ s, g.layout .proving = .ok s ∧ s.isSatisfied = .ok true := by
  subst hl
  obtain ⟨c', ha⟩ := hc.exists_assign w.length_inputBytes
  have hcomp := hc.computes ha
  rw [wordsOf_inputBytes] at hcomp
  have hroot : Tree.root w.leaves
      = .ok ((Tree.layerAbove w.leaves.length.log2 w.leaves).headD default) := by
    rw [Tree.root, if_pos hc.isPowerOfTwo]
  refine ⟨_, _, hroot, hcomp.setInput_eq ha, rfl, rfl, hcomp.output_eq _ _, ?_, ?_⟩
  · exact (hc.assign ha).1.exists_setup
  · exact hcomp.layout_isSatisfied _ _ (by simp)

end ListRootCircuit

/-- The list root circuit computes the root, and what is checked when it is made is enough. Inside a
circuit a number of leaves is refused exactly when it is no power of two, and a power of two exactly
when there are fewer leaves. Otherwise key generation lays the root out; and over nodes that stand
for words, whatever nodes follow the first ones, it stands for the root over the first words and
demands nothing. A statement about a list root circuit, in every state that a new one can reach, can
be laid out for a key. It takes every list of as many leaves, gives out their root, records both
commitments, and is satisfied; every input of another length is refused. -/
theorem list_root_circuit_computes_root :
    (∀ (s : Layout) (nodes : List Node) (n : Nat),
      (((Node.root nodes n).run s).1 = .error (.leafCountNotPowerOfTwo n) ↔ ¬ ∃ d, n = 2 ^ d) ∧
      ((∃ d, n = 2 ^ d) →
        (((Node.root nodes n).run s).1 = .error (.notEnoughLeaves n nodes.length)
          ↔ nodes.length < n) ∧
        (n ≤ nodes.length →
          (s.mode = .setup → ∃ node t, (Node.root nodes n).run s = (.ok node, t)) ∧
          ∀ ws, s.Filled → List.Forall₂ s.NodeIs nodes ws → ∃ node t r,
            (Node.root nodes n).run s = (.ok node, t) ∧ Tree.root (ws.take n) = .ok r ∧
            t.NodeIs node r ∧ (t.Satisfied ↔ s.Satisfied)))) ∧
    ∀ (n : Nat) (f : Committed ListRootCircuit), ListRootCircuit.Reached n f.computation →
      (∃ s, f.layout .setup = .ok s) ∧
      (∀ w : LeafList, w.leaves.length = n → ∃ root g, Tree.root w.leaves = .ok root ∧
        f.setInput w.inputBytes = (.ok (), g) ∧
        g.inputHash = some (hashAndTruncate w.inputBytes 253) ∧
        g.outputHash = some (hashAndTruncate root.bytes 253) ∧ g.output = .ok root.bytes ∧
        (∃ s, g.layout .setup = .ok s) ∧
        ∃ s, g.layout .proving = .ok s ∧ s.isSatisfied = .ok true) ∧
      ∀ input : Bytes, input.length ≠ n * 32 →
        f.setInput input = (.error (.invalidLength "byte wires" (n * 32) input.length), f) := by
  constructor
  · intro s nodes n
    rw [← Tree.isPowerOfTwo_iff]
    refine ⟨Node.root_refuses_count_iff, fun h ↦ ⟨Node.root_lacks_leaves_iff h, fun hle ↦ ?_⟩⟩
    refine ⟨fun hm ↦ Node.exists_root_of_setup hm h hle, fun ws hf hn ↦ ?_⟩
    obtain ⟨depth, rfl⟩ := Tree.isPowerOfTwo_iff.1 h
    exact Node.exists_root hf hn hle
  · intro n f hf
    have hc := hf.shaped
    exact ⟨hc.exists_setup, hc.computes_root, fun _ hl ↦ hc.setInput_error hl⟩

/-- A new circuit for two leaves computes the root over a zero and a one. Over three constant nodes
the root of the first two is laid out, over no nodes it is refused. -/
theorem list_root_circuit_computes_root_pair :
    let w : LeafList := ⟨[Word.ofNat 0, Word.ofNat 1]⟩
    let nodes := ([0, 1, 2].map Word.ofNat).map Node.constant
    (∃ c root g, ListRootCircuit.new 2 = .ok c ∧ ListRootCircuit.Reached 2 c ∧
      Tree.root w.leaves = .ok root ∧
      (Committed.ofComputation c).setInput w.inputBytes = (.ok (), g) ∧ g.output = .ok root.bytes ∧
      (∃ s, g.layout .proving = .ok s ∧ s.isSatisfied = .ok true) ∧
      (Committed.ofComputation c).setInput []
        = (.error (.invalidLength "byte wires" 64 0), Committed.ofComputation c)) ∧
    (∃ node t, (Node.root nodes 2).run (Layout.empty .setup) = (.ok node, t)) ∧
    (∃ node t r, (Node.root nodes 2).run (Layout.empty .proving) = (.ok node, t) ∧
      Tree.root w.leaves = .ok r ∧ t.NodeIs node r) ∧
    ((Node.root [] 3).run (Layout.empty .proving)).1 = .error (.leafCountNotPowerOfTwo 3) ∧
    ((Node.root [] 2).run (Layout.empty .proving)).1 = .error (.notEnoughLeaves 2 0) := by
  intro w nodes
  obtain ⟨hnode, hcircuit⟩ := list_root_circuit_computes_root
  refine ⟨?_, ?_, ?_, ?_, ?_⟩
  · have hnew : ListRootCircuit.new 2 = .ok ⟨2, Buffer.empty 64⟩ := by decide
    obtain ⟨-, htakes, hrefuses⟩ :=
      hcircuit 2 (Committed.ofComputation ⟨2, Buffer.empty 64⟩) (.new hnew)
    obtain ⟨root, g, hroot, hset, -, -, hout, -, hsat⟩ := htakes w rfl
    exact ⟨_, root, g, hnew, .new hnew, hroot, hset, hout, hsat, hrefuses [] (by decide)⟩
  · exact (((hnode (Layout.empty .setup) nodes 2).2 ⟨1, rfl⟩).2 (by decide)).1 rfl
  · have hfilled := filled_empty .proving (by decide)
    have hstand : List.Forall₂ (Layout.empty .proving).NodeIs nodes ([0, 1, 2].map Word.ofNat) :=
      List.forall₂_map_left_iff.2 (List.forall₂_same.2 fun v _ ↦ Node.nodeIs_constant v)
    obtain ⟨node, t, r, hrun, hroot, hr, -⟩ :=
      (((hnode _ nodes 2).2 ⟨1, rfl⟩).2 (by decide)).2 _ hfilled hstand
    exact ⟨node, t, r, hrun, hroot, hr⟩
  · have hthree : ¬ ∃ d, 3 = 2 ^ d := by
      rw [← Tree.isPowerOfTwo_iff]
      decide
    exact (hnode _ [] 3).1.2 hthree
  · exact ((hnode _ [] 2).2 ⟨1, rfl⟩).1.2 (by decide)

end TreeProver
