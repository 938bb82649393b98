import TreeProver.Proofs.Layout.Entry

/-!
# Three ways to a root

The root above a leaf is restored outside a circuit, inside a circuit with a known index, and inside
a circuit with an index that is a value of the circuit. The three give the same word. They differ in
what they do with an index that does not fit the path: outside a check fails, with a known index the
layout fails in the same way, and with an index inside the circuit a demand is left unmet.
-/

namespace TreeProver.Circuit

open Layout Synth

variable {s t : Layout}

/-- Everything that verifying a path speaks of, inside a circuit. -/
structure Opening where
  root : Node
  leaf : Node
  path : List Node
  gindex : Index

/-- Lets a root, a leaf, a path and an index enter as witnesses. -/
def Opening.alloc (root leaf : Word) (path : List Word) (g : UInt64) : Synth Opening := do
  let root ← Node.alloc .witness (some root)
  let leaf ← Node.alloc .witness (some leaf)
  let path ← (path.map some).mapM (Node.alloc .witness)
  let gindex ← Index.alloc .witness (some g)
  pure ⟨root, leaf, path, gindex⟩

/-- The opening has entered as witnesses of the given values. -/
structure Layout.OpeningIs (s : Layout) (o : Opening) (root leaf : Word) (path : List Word)
    (g : UInt64) : Prop where
  root : s.NodeEntered o.root (.ofWord .witness root)
  leaf : s.NodeEntered o.leaf (.ofWord .witness leaf)
  path : List.Forall₂ s.NodeEntered o.path (path.map (.ofWord .witness))
  gindex : s.IndexIs o.gindex g
  wires : ∀ b ∈ o.gindex.bits, b.IsWire

/-- The two restorations inside a circuit and the one outside agree on an opening. -/
structure Layout.RestorationsAgree (s : Layout) (o : Opening) (root leaf : Word)
    (path : List Word) (g : UInt64) : Prop where
  /-- All refuse a path of 64 siblings or more, and name its length. -/
  tooDeep : 64 ≤ path.length →
    Gindex.check g path.length = .error (.proofTooDeep path.length) ∧
    ((o.leaf.restore o.path g).run s).1 = .error (.proofTooDeep path.length) ∧
    ((o.leaf.restoreAt o.path o.gindex).run s).1 = .error (.proofTooDeep path.length)
  /-- The index has a bit at every level of a shorter path, and one that marks its depth. -/
  inRange : path.length < 64 → path.length < o.gindex.bits.length
  /-- With an index inside the circuit there always is a root. -/
  restoreAt : path.length < 64 → ∃ n t, (o.leaf.restoreAt o.path o.gindex).run s = (.ok n, t) ∧
    t.bytes? n.bytes = some (Tree.restore leaf path g).bytes
  /-- With an index inside the circuit the demands decide about the index and the root. -/
  verifyAt : path.length < 64 →
    ∃ t, (o.root.verifyAt o.leaf o.path o.gindex).run s = (.ok (), t) ∧ t.isSatisfied
      = .ok ((Gindex.check g path.length).isOk && decide (Tree.restore leaf path g = root))
  /-- With a known index what the check refuses fails for that reason. -/
  invalidGindex : path.length < 64 →
    (((o.leaf.restore o.path g).run s).1 = .error (.invalidGindex g path.length) ↔
      (Gindex.check g path.length).isOk = false)
  /-- With a known index that is accepted there is a root. -/
  restore : (Gindex.check g path.length).isOk = true →
    ∃ n t, (o.leaf.restore o.path g).run s = (.ok n, t) ∧
      t.bytes? n.bytes = some (Tree.restore leaf path g).bytes
  /-- With a known index that is accepted the demands decide about the root. -/
  verify : (Gindex.check g path.length).isOk = true →
    ∃ t, (o.root.verify o.leaf o.path g).run s = (.ok (), t) ∧
      t.isSatisfied = .ok (decide (Tree.restore leaf path g = root))

/-- Letting an opening enter. -/
theorem Opening.alloc_lays (h : s.Filled) (root leaf : Word) (path : List Word) (g : UInt64) :
    ∃ o t, Lays (alloc root leaf path g) s True o t ∧ t.OpeningIs o root leaf path g := by
  obtain ⟨r, s₁, h₁, hr⟩ := NodeEntry.alloc_lays h (.ofWord .witness root)
  obtain ⟨l, s₂, h₂, hl⟩ := NodeEntry.alloc_lays h₁.grows.filled (.ofWord .witness leaf)
  obtain ⟨p, s₃, h₃, hp⟩ :=
    NodeEntry.allocEach_lays h₂.grows.filled (path.map (.ofWord .witness))
  obtain ⟨i, s₄, h₄, hi, hw⟩ := Index.alloc_lays h₃.grows.filled .witness g
  have k₃ := h₃.grows.keeps
  have k₄ := h₄.grows.keeps
  have hd := Lays.pure h₄.grows.filled (Opening.mk r l p i)
  rw [NodeEntry.alloc_ofWord] at h₁ h₂
  rw [List.mapM_map, show NodeEntry.alloc ∘ NodeEntry.ofWord .witness
    = fun w ↦ Node.alloc .witness (some w) from funext fun w ↦ NodeEntry.alloc_ofWord .witness w]
    at h₃
  refine ⟨⟨r, l, p, i⟩, s₄, ?_, ?_, ?_, ?_, hi, hw (by decide)⟩
  · rw [Opening.alloc, List.mapM_map]
    exact (h₁.bind (h₂.bind (h₃.bind (h₄.bind hd)))).congr (by simp)
  · exact ((h₂.grows.keeps.trans k₃).trans k₄).nodeEntered hr
  · exact (k₃.trans k₄).nodeEntered hl
  · exact hp.imp fun _ _ hx ↦ k₄.nodeEntered hx

namespace Layout.OpeningIs

variable {o : Opening} {root leaf : Word} {path : List Word} {g : UInt64}

/-- The path inside the circuit is as long as the path outside. -/
theorem length_path (h : s.OpeningIs o root leaf path g) : o.path.length = path.length := by
  rw [h.path.length_eq, List.length_map]

/-- The nodes of the path stand for the siblings. -/
theorem path_nodeIs (h : s.OpeningIs o root leaf path g) :
    List.Forall₂ s.NodeIs o.path path := by
  have hp := h.path
  rw [List.forall₂_map_right_iff] at hp
  exact hp.imp fun _ w hx ↦ NodeEntry.word_ofWord .witness w ▸ hx.nodeIs

/-- The bytes of the root are wires. -/
theorem root_isWired (h : s.OpeningIs o root leaf path g) : ∀ b ∈ o.root.bytes, b.IsWired := by
  have hr := h.root
  rw [NodeEntered, NodeEntry.ofWord, List.forall₂_map_right_iff] at hr
  have hw : List.Forall₂ (fun b _ ↦ b.IsWired ∧ True) o.root.bytes root.bytes :=
    hr.imp fun _ _ hx ↦ ⟨hx.2, trivial⟩
  exact ((List.forall₂_and_left _ _).1 hw).1

/-- The word that is restored from the entries of an opening is the one restored outside. -/
theorem word_restored_ofWord (leaf : Word) (path : List Word) (g : UInt64) :
    ((NodeEntry.ofWord .witness leaf).restored (path.map (.ofWord .witness)) g).word
      = Tree.restore leaf path g := by
  rw [NodeEntry.word_restored, NodeEntry.word_ofWord, List.map_map]
  congr 1
  exact (List.map_congr_left fun w _ ↦ NodeEntry.word_ofWord .witness w).trans (List.map_id path)

/-- An index that is refused fails a restoration with that index for the same reason. -/
theorem restore_error (h : s.OpeningIs o root leaf path g) {e : Error}
    (he : Gindex.check g path.length = .error e) :
    ((o.leaf.restore o.path g).run s).1 = .error e := by
  rw [Node.restore, run_bind, h.length_path, he]
  rfl

/-- Below the greatest depth a restoration with a known index fails for that index exactly when the
check outside does. -/
theorem restore_invalid_iff (h : s.OpeningIs o root leaf path g) (hf : s.Filled)
    (hd : path.length < Gindex.maxDepth) :
    ((o.leaf.restore o.path g).run s).1 = .error (.invalidGindex g path.length) ↔
      (Gindex.check g path.length).isOk = false := by
  have hnd : ¬ Gindex.maxDepth ≤ path.length := Nat.not_le.2 hd
  cases hc : Gindex.check g path.length with
  | error e =>
    rw [Gindex.check, if_neg hnd] at hc
    have he : e = .invalidGindex g path.length := by
      split at hc
      · contradiction
      · exact (Except.error.inj hc).symm
    subst he
    refine iff_of_true (h.restore_error ?_) rfl
    rw [Gindex.check, if_neg hnd]
    exact hc
  | ok u =>
    obtain ⟨n, t, ht, -⟩ := Node.restore_lays hf h.leaf h.path (h.length_path ▸ hc)
    refine iff_of_false ?_ (by simp [Except.isOk, Except.toBool])
    rw [ht.run]
    simp

/-- The three restorations agree on an opening behind a satisfied layout. -/
theorem restorationsAgree (h : s.OpeningIs o root leaf path g) (hf : s.Filled)
    (hm : s.mode = .proving) (hs : s.Satisfied) : s.RestorationsAgree o root leaf path g := by
  have hlen := h.length_path
  have hleaf : s.NodeIs o.leaf leaf := NodeEntry.word_ofWord .witness leaf ▸ h.leaf.nodeIs
  have hroot : s.NodeIs o.root root := NodeEntry.word_ofWord .witness root ▸ h.root.nodeIs
  have hmark : ∀ b ∈ o.gindex.bits[o.path.length]?, b.IsWire :=
    fun b hb ↦ h.wires b (List.mem_of_getElem? hb)
  have hwires : ∀ b ∈ o.gindex.bits, b.IsWire ∨ b = .constant false :=
    fun b hb ↦ .inl (h.wires b hb)
  constructor
  case tooDeep =>
    intro hd
    have hc : Gindex.check g path.length = .error (.proofTooDeep path.length) := if_pos hd
    refine ⟨hc, h.restore_error hc, ?_⟩
    have hd' : Gindex.maxDepth ≤ o.path.length := hlen ▸ hd
    rw [Node.restoreAt, if_pos hd', run_bind, hlen]
    rfl
  case inRange =>
    intro hd
    rw [o.gindex.length_bits]
    exact hd
  case restoreAt =>
    intro hd
    obtain ⟨n, t, ht, hn⟩ := Node.restoreAt_lays hf hleaf h.path_nodeIs h.gindex
      (hlen ▸ hd) hmark hwires
    exact ⟨n, t, ht.run, BytesAre.bytes? hn⟩
  case verifyAt =>
    intro hd
    obtain ⟨t, ht⟩ := Node.verifyAt_lays hf hroot hleaf h.path_nodeIs h.gindex (hlen ▸ hd)
      h.root_isWired hmark hwires
    rw [hlen] at ht
    refine ⟨t, ht.run, ht.isSatisfied_eq hm hs ?_⟩
    rw [Bool.and_eq_true, decide_eq_true_iff]
    exact and_congr_right fun _ ↦ eq_comm
  case invalidGindex => exact h.restore_invalid_iff hf
  case restore =>
    intro hc
    rw [Gindex.isOk_check_iff, ← Gindex.check_ok_iff, ← hlen] at hc
    obtain ⟨n, t, ht, hn⟩ := Node.restore_lays hf h.leaf h.path hc
    exact ⟨n, t, ht.run, word_restored_ofWord leaf path g ▸ BytesAre.bytes? hn.nodeIs⟩
  case verify =>
    intro hc
    rw [Gindex.isOk_check_iff, ← Gindex.check_ok_iff, ← hlen] at hc
    obtain ⟨t, ht⟩ := Node.verify_lays hf h.root h.leaf h.path hc
    refine ⟨t, ht.run, ht.isSatisfied_eq hm hs ?_⟩
    rw [NodeEntry.allAgree_witness_iff, word_restored_ofWord, decide_eq_true_iff, eq_comm]

end Layout.OpeningIs

/-- A root, a leaf, a path and an index of any values can enter as witnesses, and then the three
ways to the root agree. -/
theorem Opening.restorations_agree (h : s.Filled) (hm : s.mode = .proving)
    (hs : s.isSatisfied = .ok true) (root leaf : Word) (path : List Word) (g : UInt64) :
    ∃ o t, (alloc root leaf path g).run s = (.ok o, t) ∧ t.isSatisfied = .ok true ∧
      t.RestorationsAgree o root leaf path g := by
  obtain ⟨o, t, ht, ho⟩ := alloc_lays h root leaf path g
  have hsat := (h.isSatisfied_iff hm).1 hs
  refine ⟨o, t, ht.run, ht.isSatisfied_eq hm hsat (by simp), ?_⟩
  exact ho.restorationsAgree ht.grows.filled (ht.grows.mode.trans hm)
    (ht.grows.satisfied.2 ⟨hsat, trivial⟩)

/-- On a layout with nothing in it the three ways to the root above the right one of two leaves
agree: both ways inside verify the root that is restored outside. -/
theorem Opening.restorations_agree_right_of_pair :
    let root := sha256Pair (Word.ofNat 0) (Word.ofNat 1)
    let leaf := Word.ofNat 1
    let path := [Word.ofNat 0]
    (Layout.empty .proving).Filled ∧ (Layout.empty .proving).isSatisfied = .ok true ∧
      ∃ o t, (alloc root leaf path 3).run (.empty .proving) = (.ok o, t) ∧
        t.isSatisfied = .ok true ∧ t.RestorationsAgree o root leaf path 3 ∧
        (∃ n t', (o.leaf.restore o.path 3).run t = (.ok n, t') ∧
          t'.bytes? n.bytes = some root.bytes) ∧
        (∃ t', (o.root.verify o.leaf o.path 3).run t = (.ok (), t') ∧ t'.isSatisfied = .ok true) ∧
        ∃ t', (o.root.verifyAt o.leaf o.path o.gindex).run t = (.ok (), t') ∧
          t'.isSatisfied = .ok true := by
  intro root leaf path
  have hf := filled_empty .proving (by decide)
  have hcheck : (Gindex.check 3 path.length).isOk = true := by decide
  have hroot : Tree.restore leaf path 3 = root := rfl
  have hd : path.length < 64 := by decide
  clear_value root leaf path
  obtain ⟨o, t, ho, ht, hagree⟩ := restorations_agree hf rfl rfl root leaf path 3
  refine ⟨hf, rfl, o, t, ho, ht, hagree, ?_, ?_, ?_⟩
  · obtain ⟨n, t', hrun, hn⟩ := hagree.restore hcheck
    exact ⟨n, t', hrun, hroot ▸ hn⟩
  · obtain ⟨t', hrun, hsat⟩ := hagree.verify hcheck
    exact ⟨t', hrun, by simpa [hroot] using hsat⟩
  · obtain ⟨t', hrun, hsat⟩ := hagree.verifyAt hd
    exact ⟨t', hrun, by simpa [hcheck, hroot] using hsat⟩

end TreeProver.Circuit
