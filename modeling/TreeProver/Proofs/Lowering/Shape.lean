import Mathlib.Data.List.Forall2
import TreeProver.Circuit.Lowering

/-!
# The system depends on the gates alone

A lowering carries values along, but what columns and rows it adds depends on bits only: a value is
looked at only where all bits are constants, and a constant bit carries its own constant. The
rank-one system of a layout is therefore the same whatever values its columns have, and also when
they have none.
-/

namespace TreeProver.Circuit

variable {α β γ δ : Type}

/-- The two signals have the same bit, and the value of a constant is the constant. -/
structure Signal.Alike (a₀ a : Signal) : Prop where
  bit : a₀.bit = a.bit
  value₀ : ∀ b, a₀.bit = .constant b → a₀.value = b
  value : ∀ b, a.bit = .constant b → a.value = b

/-- The two lowerings have the same columns and rows. -/
structure Lowering.Alike (l₀ l : Lowering) : Prop where
  witnesses : l₀.witnesses = l.witnesses
  rows : l₀.rows = l.rows

namespace Lower

/-- On lowerings with the same columns and rows the two actions give related results, and leave the
same columns and rows behind. -/
def Agree (r : α → α → Prop) (act₀ act : Lower α) : Prop :=
  ∀ ⦃l₀ l : Lowering⦄, l₀.Alike l →
    r (act₀.run l₀).1 (act.run l).1 ∧ (act₀.run l₀).2.Alike (act.run l).2

/-- Doing nothing agrees. -/
theorem Agree.pure {r : α → α → Prop} {a₀ a : α} (h : r a₀ a) :
    Agree r (Pure.pure a₀) (Pure.pure a) := fun _ _ hl ↦ ⟨h, hl⟩

/-- Sequences agree when their parts do. -/
theorem Agree.bind {r : α → α → Prop} {q : β → β → Prop} {act₀ act : Lower α}
    {f₀ f : α → Lower β} (h : Agree r act₀ act) (hf : ∀ a₀ a, r a₀ a → Agree q (f₀ a₀) (f a)) :
    Agree q (act₀ >>= f₀) (act >>= f) := by
  intro l₀ l hl
  obtain ⟨ha, hl'⟩ := h hl
  exact hf _ _ ha hl'

/-- Actions for the elements of related lists agree. -/
theorem mapM_agree {r : α → α → Prop} {q : β → β → Prop} {f₀ f : α → Lower β}
    (hf : ∀ a₀ a, r a₀ a → Agree q (f₀ a₀) (f a)) {xs₀ xs : List α} (h : List.Forall₂ r xs₀ xs) :
    Agree (List.Forall₂ q) (xs₀.mapM f₀) (xs.mapM f) := by
  induction h with
  | nil => exact .pure .nil
  | cons hx _ ih =>
    rw [List.mapM_cons, List.mapM_cons]
    exact (hf _ _ hx).bind fun _ _ hy ↦ ih.bind fun _ _ hys ↦ .pure (.cons hy hys)

/-- Adding the same row agrees. -/
theorem row_agree {a b c a' b' c' : Form} (ha : a = a') (hb : b = b') (hc : c = c') :
    Agree Eq (row a b c) (row a' b' c') := by
  subst ha hb hc
  exact fun l₀ l hl ↦ ⟨rfl, hl.witnesses, congrArg (·.push (a, b, c)) hl.rows⟩

/-- New bits agree, whatever their values. -/
theorem newBit_agree (v₀ v : Bool) : Agree Signal.Alike (newBit v₀) (newBit v) := by
  intro l₀ l hl
  have hb : Bit.wire (.witness l₀.witnesses) false = .wire (.witness l.witnesses) false := by
    rw [hl.witnesses]
  exact ⟨⟨hb, by rintro _ ⟨⟩, by rintro _ ⟨⟩⟩, congrArg (· + 1) hl.witnesses, hl.rows⟩

/-- A bit that is flipped to a constant was the constant that is flipped to it. -/
private theorem flip_eq_constant {opposite b : Bool} {bit : Bit}
    (h : bit.flip opposite = .constant b) : bit = .constant (opposite != b) := by
  cases bit with
  | constant y =>
    cases opposite <;> cases y <;> cases b <;> first | rfl | simp [Bit.flip, Bit.not] at h
  | wire c n => cases opposite <;> simp [Bit.flip, Bit.not] at h

/-- Flipping a bit by a constant agrees. -/
private theorem flip_agree {x v₀ v w₀ w : Bool} {bit : Bit} (hv₀ : v₀ = x) (hv : v = x)
    (hw₀ : ∀ b, bit = .constant b → w₀ = b) (hw : ∀ b, bit = .constant b → w = b) :
    Signal.Alike ⟨bit.flip x, v₀ != w₀⟩ ⟨bit.flip x, v != w⟩ := by
  have hx (b : Bool) : (x != (x != b)) = b := by cases x <;> cases b <;> rfl
  refine ⟨rfl, fun b hb ↦ ?_, fun b hb ↦ ?_⟩
  · show (v₀ != w₀) = b
    rw [hv₀, hw₀ _ (flip_eq_constant hb), hx]
  · show (v != w) = b
    rw [hv, hw _ (flip_eq_constant hb), hx]

/-- Exclusive or agrees on signals with the same bits. -/
theorem xor_agree {a₀ a b₀ b : Signal} (ha : a₀.Alike a) (hb : b₀.Alike b) :
    Agree Signal.Alike (xor a₀ b₀) (xor a b) := by
  obtain ⟨abit, v₀⟩ := a₀
  obtain ⟨_, v⟩ := a
  obtain ⟨bbit, w₀⟩ := b₀
  obtain ⟨_, w⟩ := b
  obtain ⟨rfl, hv₀, hv⟩ := ha
  obtain ⟨rfl, hw₀, hw⟩ := hb
  cases abit with
  | constant x => exact .pure (flip_agree (hv₀ x rfl) (hv x rfl) hw₀ hw)
  | wire c n =>
    cases bbit with
    | constant y =>
      have h := flip_agree (hw₀ y rfl) (hw y rfl) hv₀ hv
      rw [bne_comm, bne_comm (b := v)] at h
      exact .pure h
    | wire d m =>
      exact (newBit_agree _ _).bind fun _ _ hc ↦
        (row_agree rfl rfl (by rw [hc.bit])).bind fun _ _ _ ↦ .pure hc

/-- Choice agrees on signals with the same bits. -/
theorem mux_agree {which₀ which yes₀ yes no₀ no : Signal} (hw : which₀.Alike which)
    (hy : yes₀.Alike yes) (hn : no₀.Alike no) :
    Agree Signal.Alike (mux which₀ yes₀ no₀) (mux which yes no) := by
  obtain ⟨wbit, v₀⟩ := which₀
  obtain ⟨_, v⟩ := which
  obtain ⟨rfl, -, -⟩ := hw
  cases wbit with
  | constant b =>
    cases b
    · exact .pure hn
    · exact .pure hy
  | wire c m =>
    exact (newBit_agree _ _).bind fun _ _ hc ↦
      (row_agree rfl (by rw [hy.bit, hn.bit]) (by rw [hc.bit, hn.bit])).bind fun _ _ _ ↦ .pure hc

/-- Majority agrees on signals with the same bits. -/
theorem majority_agree {a₀ a b₀ b c₀ c : Signal} (ha : a₀.Alike a) (hb : b₀.Alike b)
    (hc : c₀.Alike c) : Agree Signal.Alike (majority a₀ b₀ c₀) (majority a b c) :=
  (xor_agree ha hb).bind fun _ _ hd ↦ mux_agree hd hc ha

end Lower

/-- Two words of signals are alike, one by one. -/
abbrev SignalWord.Alike : SignalWord → SignalWord → Prop := List.Forall₂ Signal.Alike

namespace SignalWord

open Lower

/-- A constant word is like itself. -/
theorem alike_constant (x : UInt32) : Alike (constant x) (constant x) := by
  refine List.forall₂_same.2 fun a ha ↦ ?_
  obtain ⟨i, -, rfl⟩ := List.mem_map.1 ha
  exact ⟨rfl, by rintro _ ⟨⟩; rfl, by rintro _ ⟨⟩; rfl⟩

/-- Rotations of words that are alike are alike. -/
theorem Alike.rotr {w₀ w : SignalWord} (h : Alike w₀ w) (k : Nat) :
    Alike (rotr k w₀) (rotr k w) :=
  List.rel_append (List.forall₂_drop k h) (List.forall₂_take k h)

/-- Shifts of words that are alike are alike. -/
theorem Alike.shr {w₀ w : SignalWord} (h : Alike w₀ w) (k : Nat) : Alike (shr k w₀) (shr k w) := by
  rw [SignalWord.shr, SignalWord.shr, h.length_eq]
  refine List.rel_append (List.forall₂_drop k h) (List.forall₂_same.2 fun a ha ↦ ?_)
  rw [List.eq_of_mem_replicate ha]
  exact ⟨rfl, by rintro _ ⟨⟩; rfl, by rintro _ ⟨⟩; rfl⟩

/-- What is related in two lists is related in their pairs. -/
theorem forall₂_zip {r : α → α → Prop} {q : β → β → Prop} {as₀ as : List α}
    {bs₀ bs : List β} (h : List.Forall₂ r as₀ as) (h' : List.Forall₂ q bs₀ bs) :
    List.Forall₂ (fun x₀ x ↦ r x₀.1 x.1 ∧ q x₀.2 x.2) (as₀.zip bs₀) (as.zip bs) := by
  induction h generalizing bs₀ bs with
  | nil => exact .nil
  | cons ha _ ih =>
    cases h' with
    | nil => exact .nil
    | cons hb hbs => exact .cons ⟨ha, hb⟩ (ih hbs)

/-- Exclusive or agrees on words with the same bits. -/
theorem xor_agree {a₀ a b₀ b : SignalWord} (ha : Alike a₀ a) (hb : Alike b₀ b) :
    Agree Alike (xor a₀ b₀) (xor a b) :=
  mapM_agree (fun _ _ h ↦ Lower.xor_agree h.1 h.2) (forall₂_zip ha hb)

/-- Exclusive or agrees on three words with the same bits. -/
theorem xor3_agree {a₀ a b₀ b c₀ c : SignalWord} (ha : Alike a₀ a) (hb : Alike b₀ b)
    (hc : Alike c₀ c) : Agree Alike (xor3 a₀ b₀ c₀) (xor3 a b c) :=
  (xor_agree ha hb).bind fun _ _ hd ↦ xor_agree hd hc

/-- Choice agrees on words with the same bits. -/
theorem choose_agree {e₀ e f₀ f g₀ g : SignalWord} (he : Alike e₀ e) (hf : Alike f₀ f)
    (hg : Alike g₀ g) : Agree Alike (choose e₀ f₀ g₀) (choose e f g) :=
  mapM_agree (fun _ _ h ↦ mux_agree h.1 h.2.1 h.2.2) (forall₂_zip he (forall₂_zip hf hg))

/-- Majority agrees on words with the same bits. -/
theorem majority_agree {a₀ a b₀ b c₀ c : SignalWord} (ha : Alike a₀ a) (hb : Alike b₀ b)
    (hc : Alike c₀ c) : Agree Alike (majority a₀ b₀ c₀) (majority a b c) :=
  mapM_agree (fun _ _ h ↦ Lower.majority_agree h.1 h.2.1 h.2.2) (forall₂_zip ha (forall₂_zip hb hc))

/-- Words that are alike have the same bits. -/
theorem Alike.bits_eq {w₀ w : SignalWord} (h : Alike w₀ w) :
    w₀.map Signal.bit = w.map Signal.bit := by
  induction h with
  | nil => rfl
  | cons ha _ ih => rw [List.map_cons, List.map_cons, ha.bit, ih]

/-- Words that are alike spell the same number if all their bits are constants. -/
theorem Alike.toNat_eq {w₀ w : SignalWord} (h : Alike w₀ w)
    (hc : ∀ a ∈ w, a.bit.isConstant = true) : w₀.toNat = w.toNat := by
  have hv : w₀.map Signal.value = w.map Signal.value := by
    induction h with
    | nil => rfl
    | @cons a₀ a _ _ ha _ ih =>
      have ha' := hc a (by simp)
      rw [List.map_cons, List.map_cons, ih fun b hb ↦ hc b (by simp [hb])]
      cases hb : a.bit with
      | constant b => rw [ha.value b hb, ha.value₀ b (ha.bit.trans hb)]
      | wire c n => simp [hb, Bit.isConstant] at ha'
  rw [SignalWord.toNat, hv, SignalWord.toNat]

/-- Sums agree on words with the same bits. -/
theorem sum_agree {ws₀ ws : List SignalWord} (h : List.Forall₂ Alike ws₀ ws) :
    Agree Alike (sum ws₀) (sum ws) := by
  have hbits : ws₀.map (List.map Signal.bit) = ws.map (List.map Signal.bit) := by
    induction h with
    | nil => rfl
    | cons hw _ ih => rw [List.map_cons, List.map_cons, hw.bits_eq, ih]
  have hall (vs : List SignalWord) : (vs.all fun w ↦ w.all fun a ↦ a.bit.isConstant)
      = ((vs.map (List.map Signal.bit)).all fun bs ↦ bs.all Bit.isConstant) := by
    simp [List.all_map, Function.comp_def]
  have hwhole (vs : List SignalWord) : (vs.flatMap fun w ↦ Bit.sum (w.map Signal.bit))
      = (vs.map (List.map Signal.bit)).flatMap Bit.sum := by
    rw [List.flatMap_map]
  simp only [sum, hall, hwhole, hbits, h.length_eq]
  split
  · next hc =>
    -- Constants have the same values on both sides, so their sums are equal.
    have htotal : ∀ n,
        ws₀.foldl (fun n w ↦ n + w.toNat) n = ws.foldl (fun n w ↦ n + w.toNat) n := by
      rw [← hall] at hc
      simp only [List.all_eq_true] at hc
      clear hbits
      induction h with
      | nil => exact fun n ↦ rfl
      | @cons w₀ w _ _ hw _ ih =>
        intro n
        rw [List.foldl_cons, List.foldl_cons, hw.toNat_eq (hc w (by simp)),
          ih fun v hv ↦ hc v (by simp [hv])]
    rw [htotal]
    exact .pure (alike_constant _)
  · refine (mapM_agree (r := Eq) (q := Signal.Alike) ?_ (List.forall₂_eq_eq_eq ▸ rfl)).bind
      fun bits₀ bits hb ↦ ?_
    · rintro i _ rfl
      exact (newBit_agree _ _).bind fun _ _ hc ↦
        (row_agree (by rw [hc.bit]) (by rw [hc.bit]) rfl).bind fun _ _ _ ↦ .pure hc
    · exact (row_agree (by rw [Alike.bits_eq hb]) rfl rfl).bind fun _ _ _ ↦
        .pure (List.forall₂_take 32 hb)

/-- The words of bytes that are alike are alike. -/
theorem ofBytes_alike {os₀ os : List (Octet Signal)}
    (h : List.Forall₂ (fun o₀ o ↦ Alike o₀.toList o.toList) os₀ os) :
    Alike (ofBytes os₀) (ofBytes os) :=
  List.rel_flatMap (List.rel_reverse h) fun _ _ ho ↦ ho

end SignalWord

namespace Lower

open SignalWord

/-- Lists of words of signals that are alike, one by one. -/
abbrev WordsAlike : List SignalWord → List SignalWord → Prop := List.Forall₂ SignalWord.Alike

/-- Words at a place of lists that are alike are alike. -/
theorem alike_getD {ws₀ ws : List SignalWord} (h : WordsAlike ws₀ ws) (i : Nat) :
    Alike (ws₀.getD i []) (ws.getD i []) := by
  induction h generalizing i with
  | nil => exact .nil
  | cons hw _ ih =>
    cases i with
    | zero => exact hw
    | succ i => exact ih i

/-- The next schedule word agrees on windows with the same bits. -/
theorem nextWord_agree {window₀ window : List SignalWord} (h : WordsAlike window₀ window) :
    Agree Alike (nextWord window₀) (nextWord window) := by
  have hfar := alike_getD h 1
  have hnear := alike_getD h 14
  exact (xor3_agree (hfar.rotr 7) (hfar.rotr 18) (hfar.shr 3)).bind fun _ _ h0 ↦
    (xor3_agree (hnear.rotr 17) (hnear.rotr 19) (hnear.shr 10)).bind fun _ _ h1 ↦
      sum_agree (.cons h1 (.cons (alike_getD h 9) (.cons h0 (.cons (alike_getD h 0) .nil))))

/-- The schedule agrees on windows with the same bits. -/
theorem schedule_agree (count : Nat) {window₀ window : List SignalWord}
    (h : WordsAlike window₀ window) :
    Agree WordsAlike (schedule count window₀) (schedule count window) := by
  induction count generalizing window₀ window with
  | zero => exact .pure .nil
  | succ count ih =>
    have hd := List.forall₂_drop 1 h
    have hhead : Alike (window₀.headD []) (window.headD []) := by
      cases h with
      | nil => exact .nil
      | cons hw _ => exact hw
    have hrest {following₀ following : List SignalWord} (hf : WordsAlike following₀ following) :
        Agree WordsAlike (do pure (window₀.headD [] :: (← schedule count following₀)))
          (do pure (window.headD [] :: (← schedule count following))) :=
      (ih hf).bind fun _ _ hr ↦ .pure (.cons hhead hr)
    rw [schedule, schedule]
    split
    · exact hrest hd
    · refine (nextWord_agree h).bind fun _ _ hn ↦ ?_
      exact hrest (List.rel_append hd (.cons hn .nil))

/-- A round agrees on states and words with the same bits. -/
theorem round_agree {ws₀ ws : List SignalWord} {w₀ w : SignalWord} (hs : WordsAlike ws₀ ws)
    (k : UInt32) (hw : Alike w₀ w) : Agree WordsAlike (round ws₀ k w₀) (round ws k w) := by
  have hs' := hs
  rcases hs with _ | ⟨ha, _ | ⟨hb, _ | ⟨hc, _ | ⟨hd, _ | ⟨he, _ | ⟨hf, _ | ⟨hg, _ | ⟨hh,
    _ | ⟨_, _⟩⟩⟩⟩⟩⟩⟩⟩⟩
  case cons.cons.cons.cons.cons.cons.cons.cons.nil =>
    refine (xor3_agree (he.rotr 6) (he.rotr 11) (he.rotr 25)).bind fun _ _ h1 ↦ ?_
    refine (choose_agree he hf hg).bind fun _ _ hch ↦ ?_
    refine (xor3_agree (ha.rotr 2) (ha.rotr 13) (ha.rotr 22)).bind fun _ _ h0 ↦ ?_
    refine (SignalWord.majority_agree ha hb hc).bind fun _ _ hm ↦ ?_
    have ht1 := List.Forall₂.cons hh (.cons h1 (.cons hch (.cons (alike_constant k)
      (.cons hw .nil))))
    refine (sum_agree (.cons hd ht1)).bind fun _ _ he' ↦ ?_
    refine (sum_agree (.cons h0 (.cons hm ht1))).bind fun _ _ ha' ↦ .pure ?_
    exact .cons ha'
      (.cons ha (.cons hb (.cons hc (.cons he' (.cons he (.cons hf (.cons hg .nil)))))))
  all_goals exact .pure hs'

/-- Compression agrees on states and blocks with the same bits. -/
theorem compress_agree {ws₀ ws block₀ block : List SignalWord} (hs : WordsAlike ws₀ ws)
    (hb : WordsAlike block₀ block) :
    Agree WordsAlike (compress ws₀ block₀) (compress ws block) := by
  -- The rounds one after the other, each with its constant.
  have hrounds : ∀ (ks : List UInt32) {sched₀ sched : List SignalWord},
      WordsAlike sched₀ sched → ∀ {ws₀ ws : List SignalWord}, WordsAlike ws₀ ws →
      Agree WordsAlike ((ks.zip sched₀).foldlM (fun t kw ↦ round t kw.1 kw.2) ws₀)
        ((ks.zip sched).foldlM (fun t kw ↦ round t kw.1 kw.2) ws) := by
    intro ks
    induction ks with
    | nil => exact fun _ _ _ hs ↦ .pure hs
    | cons k ks ih =>
      rintro _ _ (_ | ⟨hw, hr⟩) _ _ hs
      · exact .pure hs
      · exact (round_agree hs k hw).bind fun _ _ hs' ↦ ih hr hs'
  refine (schedule_agree 64 hb).bind fun _ _ hsched ↦ ?_
  refine (hrounds Sha256.roundConstants hsched hs).bind fun _ _ ht ↦ ?_
  exact mapM_agree (fun _ _ h ↦ sum_agree (.cons h.1 (.cons h.2 .nil))) (forall₂_zip hs ht)

/-- The run over blocks agrees on states and messages with the same bits. -/
theorem absorb_agree (blocks : Nat) {ws₀ ws message₀ message : List SignalWord}
    (hs : WordsAlike ws₀ ws) (hm : WordsAlike message₀ message) :
    Agree WordsAlike (absorb blocks ws₀ message₀) (absorb blocks ws message) := by
  induction blocks generalizing ws₀ ws message₀ message with
  | zero => exact .pure hs
  | succ blocks ih =>
    exact (compress_agree hs (List.forall₂_take 16 hm)).bind fun _ _ hs' ↦
      ih hs' (List.forall₂_drop 16 hm)

/-- The starting state is like itself. -/
theorem initial_alike : WordsAlike initial initial :=
  List.forall₂_same.2 fun w hw ↦ by
    obtain ⟨x, -, rfl⟩ := List.mem_map.1 hw
    exact alike_constant x

/-- Octets of signals with the same bits. -/
def OctetAlike (o₀ o : Octet Signal) : Prop := SignalWord.Alike o₀.toList o.toList

/-- The words of bytes with the same bits are alike. -/
theorem words_alike {os₀ os : List (Octet Signal)} (h : List.Forall₂ OctetAlike os₀ os) :
    WordsAlike (words os₀) (words os) := by
  induction os using words.induct generalizing os₀ with
  | case1 a b c d rest ih =>
    simp only [List.forall₂_cons_right_iff] at h
    obtain ⟨_, _, ha, ⟨_, _, hb, ⟨_, _, hc, ⟨_, _, hd, hrest, rfl⟩, rfl⟩, rfl⟩, rfl⟩ := h
    exact .cons (ofBytes_alike (.cons ha (.cons hb (.cons hc (.cons hd .nil))))) (ih hrest)
  | case2 os ho =>
    have hs : words os = [] := by
      rw [words]
      exact ho
    have hs₀ : words os₀ = [] := by
      rw [words]
      rintro a b c d rest rfl
      simp only [List.forall₂_cons_left_iff] at h
      obtain ⟨_, _, -, ⟨_, _, -, ⟨_, _, -, ⟨_, _, -, -, rfl⟩, rfl⟩, rfl⟩, he⟩ := h
      exact ho _ _ _ _ _ he
    rw [hs, hs₀]
    exact .nil

/-- The bits of words that are alike, byte by byte, are alike. -/
theorem wordBits_alike {w₀ w : SignalWord} (h : SignalWord.Alike w₀ w) :
    SignalWord.Alike (wordBits w₀) (wordBits w) :=
  List.rel_append (List.rel_append (List.rel_append (List.forall₂_drop 24 h)
    (List.forall₂_take 8 (List.forall₂_drop 16 h)))
    (List.forall₂_take 8 (List.forall₂_drop 8 h))) (List.forall₂_take 8 h)

/-- The signals of a byte in two layouts have the same bits. -/
theorem signals_alike (s₀ s : Layout) (b : Byte) : OctetAlike (signals s₀ b) (signals s b) := by
  have hm (s : Layout) : (signals s b).toList = b.toList.map fun a ↦ ⟨a, (s.bit? a).getD false⟩ :=
    rfl
  rw [OctetAlike, hm, hm, SignalWord.Alike, List.forall₂_map_left_iff, List.forall₂_map_right_iff,
    List.forall₂_same]
  exact fun a _ ↦ ⟨rfl, by rintro c rfl; rfl, by rintro c rfl; rfl⟩

/-- A constant byte is like itself. -/
theorem constantByte_alike (x : UInt8) : OctetAlike (constantByte x) (constantByte x) := by
  have hm : (constantByte x).toList = (Octet.ofByte x).toList.map fun v ↦ ⟨.constant v, v⟩ := rfl
  rw [OctetAlike, hm, SignalWord.Alike, List.forall₂_map_left_iff, List.forall₂_map_right_iff,
    List.forall₂_same]
  exact fun v _ ↦ ⟨rfl, by rintro c ⟨⟩; rfl, by rintro c ⟨⟩; rfl⟩

/-- Ties of signals with the same bits to the same bits agree. -/
private theorem ties_agree {as₀ as : List Signal} (h : SignalWord.Alike as₀ as) (bs : List Bit) :
    Agree Eq ((as₀.zip bs).forM fun p ↦ row (p.1.bit.form.sub p.2.form) (Form.constant 1) [])
      ((as.zip bs).forM fun p ↦ row (p.1.bit.form.sub p.2.form) (Form.constant 1) []) := by
  induction h generalizing bs with
  | nil => exact .pure rfl
  | cons ha _ ih =>
    cases bs with
    | nil => exact .pure rfl
    | cons b bs => exact (row_agree (by rw [ha.bit]) rfl rfl).bind fun _ _ _ ↦ ih bs

/-- The rows of a digest agree in all layouts. -/
theorem digest_agree (s₀ s : Layout) (message result : List Byte) :
    Agree Eq (digest s₀ message result) (digest s message result) := by
  have hpadded : List.Forall₂ OctetAlike
      (message.map (signals s₀) ++ (Sha256.padding message.length).map constantByte)
      (message.map (signals s) ++ (Sha256.padding message.length).map constantByte) := by
    refine List.rel_append ?_ ?_
    · rw [List.forall₂_map_left_iff, List.forall₂_map_right_iff, List.forall₂_same]
      exact fun b _ ↦ signals_alike s₀ s b
    · rw [List.forall₂_map_left_iff, List.forall₂_map_right_iff, List.forall₂_same]
      exact fun x _ ↦ constantByte_alike x
  refine (absorb_agree _ initial_alike (words_alike hpadded)).bind fun _ _ hs ↦ ?_
  exact ties_agree (List.rel_flatMap hs fun _ _ hw ↦ wordBits_alike hw)
    (result.flatMap Octet.toList)

/-- The rows of gates agree in all layouts. -/
theorem gates_agree (s₀ s : Layout) (gs : List Gate) :
    Agree Eq (gs.forM (gate s₀)) (gs.forM (gate s)) := by
  induction gs with
  | nil => exact .pure rfl
  | cons g gs ih =>
    refine Agree.bind (r := Eq) ?_ fun _ _ _ ↦ ih
    cases g with
    | product a b c => exact row_agree rfl rfl rfl
    | digest message result => exact digest_agree s₀ s message result

end Lower

/-- The system of a layout depends on its columns and gates alone. -/
theorem Layout.toR1cs_congr {s₀ s : Layout} (hi : s₀.inputs = s.inputs)
    (hw : s₀.witnesses = s.witnesses) (hg : s₀.gates = s.gates) : s₀.toR1cs = s.toR1cs := by
  have h₀ : Lowering.Alike ⟨s₀.witnesses, #[], #[]⟩ ⟨s.witnesses, #[], #[]⟩ := ⟨hw, rfl⟩
  have hl : s₀.lower.Alike s.lower := by
    rw [Layout.lower, Layout.lower, hg]
    exact (Lower.gates_agree s₀ s s.gates.toList h₀).2
  rw [toR1cs, toR1cs, instances, instances, hi, hl.witnesses, hl.rows]

end TreeProver.Circuit
