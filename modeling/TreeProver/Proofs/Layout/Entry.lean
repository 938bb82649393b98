import TreeProver.Proofs.Layout.Path

/-!
# Bytes that enter a circuit in different ways

A byte enters a circuit as a constant, as a public input or as a witness, and its neighbours may
enter in other ways. What is made of constants alone is a constant, and everything else is wires. A
comparison demands that two bytes agree, unless both are constants: constants are not compared. The
low bits of a digest have the truncated digest as value, whatever their number.
-/

namespace TreeProver.Circuit

open Layout Synth

variable {s t : Layout}

/-- A byte before it enters a circuit: the way in which it will, and its value. -/
structure Entry where
  how : Allocation
  value : UInt8
  deriving DecidableEq

namespace Entry

/-- Whether everybody will know the byte. -/
def isKnown (e : Entry) : Bool := decide (e.how = .constant)

/-- Lets the byte enter. -/
def alloc (e : Entry) : Synth Byte := Byte.alloc e.how (some e.value)

/-- Whether a comparison of two bytes is passed: constants are not compared, and others have to be
equal. -/
def agrees (e f : Entry) : Bool := (e.isKnown && f.isKnown) || decide (e.value = f.value)

/-- Whether a comparison of bytes one by one is passed. -/
def allAgree (es fs : List Entry) : Bool := (es.zip fs).all fun p ↦ p.1.agrees p.2

end Entry

/-- A node before it enters a circuit, every byte of it in a way of its own. -/
structure NodeEntry where
  bytes : List Entry
  length_bytes : bytes.length = 32
  deriving DecidableEq

namespace NodeEntry

/-- The value of the node. -/
def word (e : NodeEntry) : Word := ⟨e.bytes.map Entry.value, by simp [e.length_bytes]⟩

/-- Whether everybody will know the node. -/
def isKnown (e : NodeEntry) : Bool := e.bytes.all Entry.isKnown

/-- Lets the node enter. -/
def alloc (e : NodeEntry) : Synth Node := do Node.ofBytes (← e.bytes.mapM Entry.alloc)

/-- A node all of whose bytes enter in the same way. -/
def ofWord (how : Allocation) (w : Word) : NodeEntry :=
  ⟨w.bytes.map (⟨how, ·⟩), by simp [w.length_bytes]⟩

/-- A node that is computed: a constant if it is computed from constants, and otherwise
witnesses. -/
def computed (known : Bool) (w : Word) : NodeEntry :=
  ofWord (if known then .constant else .witness) w

/-- The node that is restored from a leaf along a path: the leaf itself when there is no path. -/
def restored (leaf : NodeEntry) (path : List NodeEntry) (g : UInt64) : NodeEntry :=
  if path = [] then leaf
  else computed (leaf.isKnown && path.all isKnown) (Tree.restore leaf.word (path.map word) g)

/-- A node that enters in one way has the value that it is given. -/
@[simp] theorem word_ofWord (how : Allocation) (w : Word) : (ofWord how w).word = w := by
  ext1
  simp [word, ofWord, Function.comp_def]

/-- A computed node has the value that it is given. -/
@[simp] theorem word_computed (known : Bool) (w : Word) : (computed known w).word = w :=
  word_ofWord _ w

/-- A node that enters in one way is known when it is a constant. -/
theorem isKnown_ofWord (how : Allocation) (w : Word) :
    (ofWord how w).isKnown = decide (how = .constant) := by
  have hne : w.bytes ≠ [] := List.ne_nil_of_length_pos (by simp [w.length_bytes])
  obtain ⟨b, bs, hb⟩ := List.exists_cons_of_ne_nil hne
  cases how <;> simp [isKnown, ofWord, Entry.isKnown, hb, Function.comp_def]

/-- A computed node is known when it is computed from constants. -/
@[simp] theorem isKnown_computed (known : Bool) (w : Word) :
    (computed known w).isKnown = known := by
  rw [computed, isKnown_ofWord]
  cases known <;> rfl

/-- The restored node has the value that is restored from the values. -/
@[simp] theorem word_restored (leaf : NodeEntry) (path : List NodeEntry) (g : UInt64) :
    (leaf.restored path g).word = Tree.restore leaf.word (path.map word) g := by
  rw [restored]
  split
  · next h => rw [h, List.map_nil, Tree.restore]
  · exact word_computed _ _

/-- A node of witnesses agrees with another one exactly when the two have the same value. -/
theorem allAgree_witness_iff (w : Word) (e : NodeEntry) :
    Entry.allAgree (ofWord .witness w).bytes e.bytes = true ↔ w = e.word := by
  have hz {xs : Bytes} {es : List Entry} (hl : xs.length = es.length) :
      Entry.allAgree (xs.map (⟨.witness, ·⟩)) es = true ↔ xs = es.map Entry.value := by
    induction xs generalizing es with
    | nil =>
      obtain rfl := List.length_eq_zero_iff.1 hl.symm
      simp [Entry.allAgree]
    | cons x xs ih =>
      cases es with
      | nil => simp at hl
      | cons e es =>
        have ih := ih (Nat.succ.inj hl)
        simp only [Entry.allAgree, List.map_cons, List.zip_cons_cons, List.all_cons,
          Bool.and_eq_true, List.cons.injEq] at ih ⊢
        rw [ih]
        simp [Entry.agrees, Entry.isKnown]
  rw [Word.ext_iff]
  exact hz (w.length_bytes.trans e.length_bytes.symm)

/-- Letting a node enter in one way is allocating it. -/
theorem alloc_ofWord (how : Allocation) (w : Word) :
    (ofWord how w).alloc = Node.alloc how (some w) := by
  simp [alloc, ofWord, Node.alloc, Byte.allocAll, Byte.optionalBytes, w.length_bytes, Word.size,
    List.mapM_map, Entry.alloc, Function.comp_def]

/-- One step of the walk up: from the parent of the leaf along the rest of the path. -/
theorem restored_cons (leaf sibling : NodeEntry) (path : List NodeEntry) (g : UInt64) :
    (computed (leaf.isKnown && sibling.isKnown)
        (Tree.parentAt g leaf.word sibling.word)).restored path (g / 2)
      = leaf.restored (sibling :: path) g := by
  cases path with
  | nil => simp [restored, Tree.restore]
  | cons other path => simp [restored, Tree.restore, Bool.and_assoc]

end NodeEntry

namespace Layout

/-- A byte has entered as an entry says. -/
def Entered (s : Layout) (b : Byte) (e : Entry) : Prop := s.ByteIs b e.value ∧ b.Known e.isKnown

/-- A node has entered as the entries of its bytes say. -/
def NodeEntered (s : Layout) (n : Node) (e : NodeEntry) : Prop :=
  List.Forall₂ s.Entered n.bytes e.bytes

/-- A layout that keeps the values of the columns keeps how bytes have entered. -/
theorem Keeps.entered (h : s.Keeps t) {b : Byte} {e : Entry} (he : s.Entered b e) :
    t.Entered b e := ⟨h.byteIs he.1, he.2⟩

/-- A layout that keeps the values of the columns keeps how nodes have entered. -/
theorem Keeps.nodeEntered (h : s.Keeps t) {n : Node} {e : NodeEntry} (he : s.NodeEntered n e) :
    t.NodeEntered n e := he.imp fun _ _ hb ↦ h.entered hb

/-- A node that has entered stands for its value. -/
theorem NodeEntered.nodeIs {n : Node} {e : NodeEntry} (h : s.NodeEntered n e) :
    s.NodeIs n e.word := by
  rw [NodeIs, BytesAre, NodeEntry.word, List.forall₂_map_right_iff]
  exact h.imp fun _ _ hb ↦ hb.1

/-- Bytes that have entered are constants when their entries are known. -/
theorem all_isConstant {bs : List Byte} {es : List Entry} (h : List.Forall₂ s.Entered bs es) :
    bs.all Byte.isConstant = es.all Entry.isKnown := by
  induction h with
  | nil => rfl
  | cons hb _ ih => rw [List.all_cons, List.all_cons, ih, hb.2.isConstant_eq]

/-- A node has entered in one way when it stands for the value and its bytes are constants or wires
accordingly. -/
theorem nodeEntered_ofWord {n : Node} {w : Word} {how : Allocation} (h : s.NodeIs n w)
    (hk : ∀ b ∈ n.bytes, b.Known (decide (how = .constant))) :
    s.NodeEntered n (.ofWord how w) := by
  rw [NodeEntered, NodeEntry.ofWord, List.forall₂_map_right_iff]
  exact ((List.forall₂_and_left _ _).2 ⟨hk, h⟩).imp fun _ _ hb ↦ ⟨hb.2, hb.1⟩

/-- A node has entered as a computed one when it stands for the value and its bytes are constants or
wires accordingly. -/
theorem nodeEntered_computed {n : Node} {w : Word} {known : Bool} (h : s.NodeIs n w)
    (hk : ∀ b ∈ n.bytes, b.Known known) : s.NodeEntered n (.computed known w) :=
  nodeEntered_ofWord h (by cases known <;> simpa using hk)

end Layout

/-- Letting a byte enter. -/
theorem Entry.alloc_lays (h : s.Filled) (e : Entry) :
    ∃ b t, Lays e.alloc s True b t ∧ t.Entered b e := by
  obtain ⟨how, x⟩ := e
  have hwired (hn : how ≠ .constant) :
      ∃ b t, Lays (alloc ⟨how, x⟩) s True b t ∧ t.Entered b ⟨how, x⟩ := by
    obtain ⟨b, t, ht, hb, hw⟩ := Byte.alloc_lays h how x
    have hk : isKnown ⟨how, x⟩ = false := by simp [isKnown, hn]
    exact ⟨b, t, ht, hb, by rw [hk]; exact hw hn⟩
  cases how with
  | constant => exact ⟨Byte.constant x, s, ⟨rfl, .refl h⟩, Byte.byteIs_constant x, rfl⟩
  | input => exact hwired (by decide)
  | witness => exact hwired (by decide)

/-- Letting bytes enter one after the other. -/
theorem Entry.allocEach_lays (h : s.Filled) (es : List Entry) :
    ∃ bs t, Lays (es.mapM alloc) s True bs t ∧ List.Forall₂ t.Entered bs es := by
  obtain ⟨bs, t, ht, hb, -⟩ := mapM_lays (q := fun _ ↦ True) Keeps.entered
    (fun e hf ↦ by simpa using alloc_lays hf e) h es
  exact ⟨bs, t, ht, hb⟩

/-- Letting a node enter. -/
theorem NodeEntry.alloc_lays (h : s.Filled) (e : NodeEntry) :
    ∃ n t, Lays e.alloc s True n t ∧ t.NodeEntered n e := by
  obtain ⟨bs, t, ht, hb⟩ := Entry.allocEach_lays h e.bytes
  have hl : bs.length = 32 := hb.length_eq.trans e.length_bytes
  have hn := Lays.ofExcept ht.grows.filled (Node.ofBytes_eq hl)
  exact ⟨⟨bs, hl⟩, t, (ht.bind hn).congr (by simp), hb⟩

/-- Letting nodes enter one after the other. -/
theorem NodeEntry.allocEach_lays (h : s.Filled) (es : List NodeEntry) :
    ∃ ns t, Lays (es.mapM alloc) s True ns t ∧ List.Forall₂ t.NodeEntered ns es := by
  obtain ⟨ns, t, ht, hn, -⟩ := mapM_lays (q := fun _ ↦ True) Keeps.nodeEntered
    (fun e hf ↦ by simpa using alloc_lays hf e) h es
  exact ⟨ns, t, ht, hn⟩

/-- Comparing two bytes demands that they agree. -/
theorem Byte.demandEqual_entered_lays (h : s.Filled) {a b : Byte} {e f : Entry}
    (ha : s.Entered a e) (hb : s.Entered b f) :
    ∃ t, Lays (demandEqual a b) s (e.agrees f = true) () t := by
  have hac := ha.2.isConstant_eq
  have hbc := hb.2.isConstant_eq
  by_cases hk : (e.isKnown && f.isKnown) = true
  · refine ⟨s, ?_⟩
    rw [demandEqual, hac, hbc, if_pos hk]
    exact (Lays.pure h ()).congr (by simp [Entry.agrees, hk])
  · have hw : a.IsWired ∨ b.IsWired := by
      rw [Bool.and_eq_true, not_and_or, Bool.not_eq_true, Bool.not_eq_true, ← hac, ← hbc] at hk
      exact hk.imp ha.2.isWired hb.2.isWired
    obtain ⟨t, ht⟩ := demandEqual_lays h ha.1 hb.1 hw
    exact ⟨t, ht.congr (by simp [Entry.agrees, hk])⟩

/-- Comparing bytes one by one demands that all of them agree. -/
private theorem Byte.demandEntered_lays (h : s.Filled) {as bs : List Byte} {es fs : List Entry}
    (ha : List.Forall₂ s.Entered as es) (hb : List.Forall₂ s.Entered bs fs) :
    ∃ t, Lays ((as.zip bs).forM fun p ↦ demandEqual p.1 p.2) s
      (Entry.allAgree es fs = true) () t := by
  induction as generalizing s bs es fs with
  | nil =>
    cases ha
    exact ⟨s, (Lays.pure h ()).congr (by simp [Entry.allAgree])⟩
  | cons a as ih =>
    cases ha with
    | cons hae has =>
      cases hb with
      | nil => exact ⟨s, (Lays.pure h ()).congr (by simp [Entry.allAgree])⟩
      | cons hbf hbs =>
        obtain ⟨t, ht⟩ := demandEqual_entered_lays h hae hbf
        have hk := ht.grows.keeps
        obtain ⟨u, hu⟩ := ih ht.grows.filled (has.imp fun _ _ hx ↦ hk.entered hx)
          (hbs.imp fun _ _ hx ↦ hk.entered hx)
        exact ⟨u, (ht.bind hu).congr (by simp [Entry.allAgree])⟩

/-- Comparing byte strings of equal length demands that all bytes agree. -/
theorem Byte.demandAllEqual_entered_lays (h : s.Filled) {as bs : List Byte} {es fs : List Entry}
    (ha : List.Forall₂ s.Entered as es) (hb : List.Forall₂ s.Entered bs fs)
    (hl : es.length = fs.length) :
    ∃ t, Lays (demandAllEqual as bs) s (Entry.allAgree es fs = true) () t := by
  obtain ⟨t, ht⟩ := demandEntered_lays h ha hb
  have hlen : as.length = bs.length := by rw [ha.length_eq, hb.length_eq, hl]
  refine ⟨t, ?_⟩
  simp only [demandAllEqual, hlen, ne_eq, not_true_eq_false, ↓reduceIte]
  exact ht

namespace Node

/-- Comparing two nodes demands that all bytes agree. -/
theorem demandEqual_entered_lays (h : s.Filled) {a b : Node} {e f : NodeEntry}
    (ha : s.NodeEntered a e) (hb : s.NodeEntered b f) :
    ∃ t, Lays (demandEqual a b) s (Entry.allAgree e.bytes f.bytes = true) () t :=
  Byte.demandAllEqual_entered_lays h ha hb (e.length_bytes.trans f.length_bytes.symm)

/-- The parent of two nodes is computed from them. -/
theorem sha256Pair_entered_lays (h : s.Filled) {a b : Node} {e f : NodeEntry}
    (ha : s.NodeEntered a e) (hb : s.NodeEntered b f) :
    ∃ n t, Lays (Synth.sha256Pair a b) s True n t ∧
      t.NodeEntered n (.computed (e.isKnown && f.isKnown) (sha256Pair e.word f.word)) := by
  obtain ⟨n, t, ht, hn, hk⟩ := sha256_lays_known h (List.rel_append ha.nodeIs hb.nodeIs)
  refine ⟨n, t, ht, nodeEntered_computed hn ?_⟩
  rwa [List.all_append, all_isConstant ha, all_isConstant hb] at hk

/-- The walk with a known index reaches the node that is restored from the entries. -/
theorem climb_lays (h : s.Filled) {node : Node} {e : NodeEntry} {path : List Node}
    {es : List NodeEntry} {g : UInt64} (hn : s.NodeEntered node e)
    (hp : List.Forall₂ s.NodeEntered path es) :
    ∃ n t, Lays (climb node path g) s True n t ∧ t.NodeEntered n (e.restored es g) := by
  induction path generalizing s node e es g with
  | nil =>
    cases hp
    exact ⟨node, s, .pure h node, hn⟩
  | cons sibling path ih =>
    cases hp with
    | @cons _ f _ fs hf hfs =>
    -- The parity of the index picks the order outside the circuit as well.
    have hparent : ∃ n t, Lays (if g % 2 = 1 then Synth.sha256Pair sibling node
        else Synth.sha256Pair node sibling) s True n t ∧ t.NodeEntered n
          (.computed (e.isKnown && f.isKnown) (Tree.parentAt g e.word f.word)) := by
      rw [Tree.parentAt]
      split
      · rw [Bool.and_comm]
        exact sha256Pair_entered_lays h hf hn
      · exact sha256Pair_entered_lays h hn hf
    obtain ⟨parent, t, ht, hpar⟩ := hparent
    obtain ⟨n, u, hu, hnu⟩ := ih (g := g / 2) ht.grows.filled hpar
      (hfs.imp fun _ _ h' ↦ ht.grows.keeps.nodeEntered h')
    rw [NodeEntry.restored_cons] at hnu
    have he : climb node (sibling :: path) g = ((if g % 2 = 1 then Synth.sha256Pair sibling node
        else Synth.sha256Pair node sibling) >>= fun parent ↦ climb parent path (g / 2)) := by
      rw [climb]
      split <;> rfl
    rw [he]
    exact ⟨n, u, (ht.bind hu).congr (by simp), hnu⟩

/-- Restoring a root with a known index that is accepted reaches the restored node. -/
theorem restore_lays (h : s.Filled) {leaf : Node} {e : NodeEntry} {path : List Node}
    {es : List NodeEntry} {g : UInt64} (hn : s.NodeEntered leaf e)
    (hp : List.Forall₂ s.NodeEntered path es) (hg : Gindex.check g path.length = .ok ()) :
    ∃ n t, Lays (restore leaf path g) s True n t ∧ t.NodeEntered n (e.restored es g) := by
  obtain ⟨n, t, ht, hnt⟩ := climb_lays h hn hp
  exact ⟨n, t, ((Lays.ofExcept h hg).bind ht).congr (by simp), hnt⟩

/-- Verifying a path with a known index that is accepted demands that the root agrees with the
restored node. -/
theorem verify_lays (h : s.Filled) {root leaf : Node} {r e : NodeEntry} {path : List Node}
    {es : List NodeEntry} {g : UInt64} (hr : s.NodeEntered root r) (hn : s.NodeEntered leaf e)
    (hp : List.Forall₂ s.NodeEntered path es) (hg : Gindex.check g path.length = .ok ()) :
    ∃ t, Lays (verify root leaf path g) s
      (Entry.allAgree r.bytes (e.restored es g).bytes = true) () t := by
  obtain ⟨n, t, ht, hnt⟩ := restore_lays h hn hp hg
  obtain ⟨u, hu⟩ := demandEqual_entered_lays ht.grows.filled (ht.grows.keeps.nodeEntered hr) hnt
  exact ⟨u, (ht.bind hu).congr (by simp)⟩

end Node

/-- Lets two byte strings enter and demands that they are equal. -/
def Entry.demandEqual (es fs : List Entry) : Synth Unit := do
  let as ← es.mapM alloc
  let bs ← fs.mapM alloc
  Byte.demandAllEqual as bs

/-- Lets a root, a leaf and a path enter and demands that the leaf sits below the root. -/
def NodeEntry.verify (root leaf : NodeEntry) (path : List NodeEntry) (g : UInt64) :
    Synth Unit := do
  let r ← root.alloc
  let l ← leaf.alloc
  let p ← path.mapM alloc
  Node.verify r l p g

/-- Demanding that byte strings of equal length are equal demands that all bytes agree. -/
theorem Entry.demandEqual_lays (h : s.Filled) {es fs : List Entry} (hl : es.length = fs.length) :
    ∃ t, Lays (demandEqual es fs) s (allAgree es fs = true) () t := by
  obtain ⟨as, s₁, h₁, ha⟩ := allocEach_lays h es
  obtain ⟨bs, s₂, h₂, hb⟩ := allocEach_lays h₁.grows.filled fs
  obtain ⟨s₃, h₃⟩ := Byte.demandAllEqual_entered_lays h₂.grows.filled
    (ha.imp fun _ _ hx ↦ h₂.grows.keeps.entered hx) hb hl
  exact ⟨s₃, (h₁.bind (h₂.bind h₃)).congr (by simp)⟩

/-- Demanding that a leaf with an accepted index sits below a root demands that the bytes of the
root agree with those restored. -/
theorem NodeEntry.verify_lays (h : s.Filled) (root leaf : NodeEntry) {path : List NodeEntry}
    {g : UInt64} (hg : Gindex.check g path.length = .ok ()) :
    ∃ t, Lays (root.verify leaf path g) s
      (Entry.allAgree root.bytes (leaf.restored path g).bytes = true) () t := by
  obtain ⟨r, s₁, h₁, hr⟩ := alloc_lays h root
  obtain ⟨l, s₂, h₂, hl⟩ := alloc_lays h₁.grows.filled leaf
  obtain ⟨p, s₃, h₃, hp⟩ := allocEach_lays h₂.grows.filled path
  have k₂ := h₂.grows.keeps
  have k₃ := h₃.grows.keeps
  rw [← hp.length_eq] at hg
  obtain ⟨s₄, h₄⟩ := Node.verify_lays h₃.grows.filled ((k₂.trans k₃).nodeEntered hr)
    (k₃.nodeEntered hl) hp hg
  exact ⟨s₄, (h₁.bind (h₂.bind (h₃.bind h₄))).congr (by simp)⟩

/-- What equality demands decide, whatever the ways in which the bytes enter. Both calls succeed.
Behind them the layout is satisfied exactly when all bytes agree, so that two bytes may differ only
when everybody knows both. A restored root is known when the leaf and all siblings are. -/
theorem equality_demands (h : s.Filled) (hm : s.mode = .proving) (hs : s.isSatisfied = .ok true) :
    (∀ es fs : List Entry, es.length = fs.length →
      ∃ t, (Entry.demandEqual es fs).run s = (.ok (), t) ∧
        t.isSatisfied = .ok (Entry.allAgree es fs)) ∧
    (∀ (root leaf : NodeEntry) (path : List NodeEntry) (g : UInt64),
      Gindex.check g path.length = .ok () →
        ∃ t, (root.verify leaf path g).run s = (.ok (), t) ∧
          t.isSatisfied = .ok (Entry.allAgree root.bytes (leaf.restored path g).bytes)) := by
  have hsat := (h.isSatisfied_iff hm).1 hs
  constructor
  · intro es fs hl
    obtain ⟨t, ht⟩ := Entry.demandEqual_lays h hl
    exact ⟨t, ht.run, ht.isSatisfied_eq hm hsat .rfl⟩
  · intro root leaf path g hg
    obtain ⟨t, ht⟩ := NodeEntry.verify_lays h root leaf hg
    exact ⟨t, ht.run, ht.isSatisfied_eq hm hsat .rfl⟩

/-- On a layout with nothing in it the theorem decides about two witnesses. -/
theorem equality_demands_witnesses :
    (Layout.empty .proving).Filled ∧ (Layout.empty .proving).isSatisfied = .ok true ∧
      ∃ t, (Entry.demandEqual [⟨.witness, 0⟩] [⟨.witness, 1⟩]).run (.empty .proving) = (.ok (), t) ∧
        t.isSatisfied = .ok false :=
  have hf := filled_empty .proving (by decide)
  ⟨hf, rfl, (equality_demands hf rfl rfl).1 [⟨.witness, 0⟩] [⟨.witness, 1⟩] rfl⟩

/-- Two constant bytes that differ pass the demand that they are equal. -/
theorem equality_of_constants_passed :
    ∃ t, (Entry.demandEqual [⟨.constant, 0⟩] [⟨.constant, 1⟩]).run (.empty .proving) = (.ok (), t) ∧
      t.isSatisfied = .ok true := ⟨.empty .proving, rfl, rfl⟩

/-- Cutting a digest down to its low bits inside a circuit is truncating it outside, at every width
and whatever the ways in which the bytes enter, be it the digest that enters or a message that is
hashed. The number that the bits spell may exceed the modulus: both sides reduce it. -/
theorem low_bits_are_truncated (h : s.Filled) (bits : Nat) :
    (∀ e : NodeEntry, ∃ n t, e.alloc.run s = (.ok n, t) ∧
      t.eval? (n.low bits) = some (e.word.truncate bits).toScalar) ∧
    ∀ es : List Entry,
      ∃ f t, (es.mapM Entry.alloc >>= (Synth.commitment · bits)).run s = (.ok f, t) ∧
        t.eval? f = some (hashAndTruncate (es.map Entry.value) bits).toScalar := by
  constructor
  · intro e
    obtain ⟨n, t, ht, hn⟩ := NodeEntry.alloc_lays h e
    exact ⟨n, t, ht.run, Node.eval?_low hn.nodeIs bits⟩
  · intro es
    obtain ⟨bs, t, ht, hb⟩ := Entry.allocEach_lays h es
    have hbytes : t.BytesAre bs (es.map Entry.value) :=
      List.forall₂_map_right_iff.2 (hb.imp fun _ _ hx ↦ hx.1)
    obtain ⟨f, u, hu, hf⟩ := truncated_lays ht.grows.filled hbytes bits
    exact ⟨f, u, (ht.bind hu).run, hf⟩

/-- The largest digest, its bytes entering in turn in each way: its low 254 bits exceed the
modulus. -/
theorem low_bits_are_truncated_largest :
    let e : NodeEntry := ⟨(List.range 32).map fun i ↦
      ⟨[.constant, .input, .witness].getD (i % 3) .witness, 255⟩, rfl⟩
    (Layout.empty .proving).Filled ∧ scalarModulus ≤ (e.word.truncate 254).toNat ∧
      (∃ n t, e.alloc.run (.empty .proving) = (.ok n, t) ∧
        t.eval? (n.low 254) = some (e.word.truncate 254).toScalar) ∧
      ∃ f t, (e.bytes.mapM Entry.alloc >>= (Synth.commitment · 300)).run (.empty .proving)
          = (.ok f, t) ∧
        t.eval? f = some (hashAndTruncate e.word.bytes 300).toScalar := by
  intro e
  have hf := filled_empty .proving (by decide)
  exact ⟨hf, by decide +kernel, (low_bits_are_truncated hf 254).1 e,
    (low_bits_are_truncated hf 300).2 e.bytes⟩

end TreeProver.Circuit
