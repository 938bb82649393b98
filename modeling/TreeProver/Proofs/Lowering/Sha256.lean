import Mathlib
import TreeProver.Proofs.Layout.Growth
import TreeProver.Proofs.Lowering.Words

/-!
# The rows of a digest

The lowering of a digest gate follows SHA-256 step by step: schedule, rounds, compression and the
run over the blocks emit rows that hold, and their signals carry the words that the steps compute
outside a circuit. The last rows of a digest gate tie these words to the digest, so they hold when
the gate does. All rows of a satisfied layout therefore hold.
-/

namespace TreeProver

namespace Sha256

/-- The eight words of a state. -/
def State.words (s : State) : List UInt32 := [s.a, s.b, s.c, s.d, s.e, s.f, s.g, s.h]

/-- The bytes of a state are those of its words. -/
theorem State.toWord_bytes (s : State) : s.toWord.bytes = s.words.flatMap wordBytes := by
  simp [toWord, words]

/-- The words of the sum of two states are the sums of their words. -/
theorem State.words_add (s t : State) :
    (s.add t).words = (s.words.zip t.words).map fun p ↦ [p.1, p.2].sum := by
  simp [words, add]

/-- There are a quarter as many words as bytes. -/
theorem length_words : (bs : Bytes) → (words bs).length = bs.length / 4
  | [] | [_] | [_, _] | [_, _, _] => by simp [words]
  | _ :: _ :: _ :: _ :: rest => by
    rw [words, List.length_cons, length_words rest]
    simp only [List.length_cons]
    omega

/-- A padded message fills whole blocks. -/
theorem length_padded (data : Bytes) :
    (data ++ padding data.length).length = 64 * blockCount data.length := by
  simp only [padding, blockCount, List.length_append, List.length_cons, List.length_replicate,
    Bytes.length_ofNatBE]
  omega

end Sha256

namespace Circuit

open Layout SignalWord

variable {s : Layout} {l : Lowering}

namespace Layout

/-- A word at a place of a list carries the word at that place. -/
theorem WordsAre.getD {ws : List SignalWord} {xs : List UInt32} (h : s.WordsAre ws xs) {i : Nat}
    (hi : i < xs.length) : s.WordIs (ws.getD i []) (xs.getD i 0) := by
  obtain ⟨hl, hg⟩ := List.forall₂_iff_get.1 h
  have hw : i < ws.length := hl ▸ hi
  simpa [hw, hi] using hg i hw hi

/-- The signals of an octet carry the bits of a byte. -/
def OctetIs (s : Layout) (o : Octet Signal) (x : UInt8) : Prop :=
  s.SignalsAre o.toList (Octet.ofByte x).toList

/-- The layout keeps its values when columns of a lowering follow. -/
theorem keeps_extend (s : Layout) (l : Lowering) : s.Keeps (s.extend l) := by
  intro c x hx
  cases c with
  | one => exact hx
  | input i => exact hx
  | witness i =>
    obtain ⟨hi, -⟩ := Array.getElem?_eq_some_iff.1 hx
    exact (Array.getElem?_append_left hi).trans hx

end Layout

namespace Lower

/-- The next schedule word carries the word that is next outside. -/
theorem nextWord_emits (h : l.Sound s) {window : List SignalWord} {xs : List UInt32}
    (hw : (s.extend l).WordsAre window xs) (hl : xs.length = 16) :
    ∃ r t, Emits (nextWord window) s l r t ∧ (s.extend t).WordIs r (Sha256.nextWord xs) := by
  have hfar := hw.getD (i := 1) (by omega)
  have hnear := hw.getD (i := 14) (by omega)
  obtain ⟨s0, t₁, h₁, hs0⟩ := xor3_emits h (wordIs_rotr hfar (n := 7) rfl (by decide) (by decide))
    (wordIs_rotr hfar (n := 18) rfl (by decide) (by decide))
    (wordIs_shr hfar (n := 3) rfl (by decide))
  have hnear₁ := h₁.keeps.wordIs hnear
  obtain ⟨s1, t₂, h₂, hs1⟩ := xor3_emits h₁.sound
    (wordIs_rotr hnear₁ (n := 17) rfl (by decide) (by decide))
    (wordIs_rotr hnear₁ (n := 19) rfl (by decide) (by decide))
    (wordIs_shr hnear₁ (n := 10) rfl (by decide))
  have hw₂ := h₂.keeps.wordsAre (h₁.keeps.wordsAre hw)
  obtain ⟨r, t₃, h₃, hr⟩ := sum_emits h₂.sound (.cons hs1 (.cons (hw₂.getD (i := 9) (by omega))
    (.cons (h₂.keeps.wordIs hs0) (.cons (hw₂.getD (i := 0) (by omega)) .nil))))
  refine ⟨r, t₃, h₁.bind (h₂.bind h₃), ?_⟩
  simpa [Sha256.nextWord, Sha256.smallSigma0, Sha256.smallSigma1, UInt32.add_assoc] using hr

/-- The schedule carries the schedule outside. The window holds no more words than are asked for. -/
theorem schedule_emits (h : l.Sound s) {count : Nat} {window : List SignalWord} {xs : List UInt32}
    (hw : (s.extend l).WordsAre window (xs.take count)) (hl : xs.length = 16) :
    ∃ r t, Emits (schedule count window) s l r t ∧
      (s.extend t).WordsAre r (Sha256.schedule count xs) := by
  induction count generalizing l window xs with
  | zero => exact ⟨[], l, .pure h [], .nil⟩
  | succ count ih =>
    have hnext : (xs.drop 1 ++ [Sha256.nextWord xs]).length = 16 := by simp [hl]
    obtain ⟨x, rest, rfl⟩ : ∃ x rest, xs = x :: rest := List.exists_cons_of_length_eq_add_one hl
    -- The window that follows holds the words that are still asked for.
    have hfollow : ∃ following t, Emits
        (if count < 16 then pure (window.drop 1)
          else do pure (window.drop 1 ++ [← nextWord window])) s l following t ∧
        (s.extend t).WordsAre following
          (((x :: rest).drop 1 ++ [Sha256.nextWord (x :: rest)]).take count) := by
      have hdrop := List.forall₂_drop 1 hw
      split
      · next hc =>
        refine ⟨_, l, .pure h _, ?_⟩
        have hle : count ≤ rest.length := by
          simp at hl
          omega
        simpa [List.take_append_of_le_length hle] using hdrop
      · next hc =>
        have hfull : (x :: rest).take (count + 1) = x :: rest :=
          List.take_of_length_le (by omega)
        rw [hfull] at hw hdrop
        obtain ⟨n, t, ht, hn⟩ := nextWord_emits h hw hl
        refine ⟨_, t, ht.bind (.pure ht.sound _), ?_⟩
        rw [List.take_of_length_le (by omega)]
        exact List.rel_append (ht.keeps.wordsAre hdrop) (.cons hn .nil)
    obtain ⟨following, t, ht, hf⟩ := hfollow
    obtain ⟨r, u, hu, hr⟩ := ih ht.sound hf hnext
    refine ⟨window.headD [] :: r, u, ?_, .cons ?_ hr⟩
    · have hs := ht.bind
        (f := fun following ↦ do pure (window.headD [] :: (← schedule count following)))
        (hu.bind (.pure hu.sound (window.headD [] :: r)))
      rw [schedule]
      split at hs
      · next hc =>
        simp only [hc, ↓reduceIte]
        exact hs
      · next hc =>
        simp only [hc, ↓reduceIte]
        exact hs
    · cases hw with
      | cons hwx _ => exact hu.keeps.wordIs (ht.keeps.wordIs hwx)

/-- A round carries the round outside. -/
theorem round_emits (h : l.Sound s) {ws : List SignalWord} {S : Sha256.State} {w : SignalWord}
    {k x : UInt32} (hs : (s.extend l).WordsAre ws S.words) (hw : (s.extend l).WordIs w x) :
    ∃ r t, Emits (round ws k w) s l r t ∧ (s.extend t).WordsAre r (Sha256.round S k x).words := by
  simp only [Sha256.State.words, WordsAre, List.forall₂_cons_right_iff,
    List.forall₂_nil_right_iff] at hs
  obtain ⟨a, _, ha, ⟨b, _, hb, ⟨c, _, hc, ⟨d, _, hd, ⟨e, _, he, ⟨f, _, hf, ⟨g, _, hg,
    ⟨h', _, hh, rfl, rfl⟩, rfl⟩, rfl⟩, rfl⟩, rfl⟩, rfl⟩, rfl⟩, rfl⟩ := hs
  obtain ⟨sigma1, t₁, h₁, hsigma1⟩ := xor3_emits h
    (wordIs_rotr he (n := 6) rfl (by decide) (by decide))
    (wordIs_rotr he (n := 11) rfl (by decide) (by decide))
    (wordIs_rotr he (n := 25) rfl (by decide) (by decide))
  have k₁ := h₁.keeps
  obtain ⟨chosen, t₂, h₂, hchosen⟩ := choose_emits h₁.sound (k₁.wordIs he) (k₁.wordIs hf)
    (k₁.wordIs hg)
  have k₂ := k₁.trans h₂.keeps
  obtain ⟨sigma0, t₃, h₃, hsigma0⟩ := xor3_emits h₂.sound
    (wordIs_rotr (k₂.wordIs ha) (n := 2) rfl (by decide) (by decide))
    (wordIs_rotr (k₂.wordIs ha) (n := 13) rfl (by decide) (by decide))
    (wordIs_rotr (k₂.wordIs ha) (n := 22) rfl (by decide) (by decide))
  have k₃ := k₂.trans h₃.keeps
  obtain ⟨most, t₄, h₄, hmost⟩ := SignalWord.majority_emits h₃.sound (k₃.wordIs ha) (k₃.wordIs hb)
    (k₃.wordIs hc)
  have k₄ := k₃.trans h₄.keeps
  have k₃₄ := h₃.keeps.trans h₄.keeps
  -- The five summands that both sums share.
  have ht1 : (s.extend t₄).WordsAre [h', sigma1, chosen, constant k, w]
      [S.h, Sha256.bigSigma1 S.e, Sha256.choose S.e S.f S.g, k, x] :=
    .cons (k₄.wordIs hh) (.cons ((h₂.keeps.trans k₃₄).wordIs hsigma1)
      (.cons (k₃₄.wordIs hchosen) (.cons (wordIs_constant k) (.cons (k₄.wordIs hw) .nil))))
  obtain ⟨e', t₅, h₅, he'⟩ := sum_emits h₄.sound (.cons (k₄.wordIs hd) ht1)
  have hs0 := (h₄.keeps.trans h₅.keeps).wordIs hsigma0
  obtain ⟨a', t₆, h₆, ha'⟩ := sum_emits h₅.sound
    (.cons hs0 (.cons (h₅.keeps.wordIs hmost) (h₅.keeps.wordsAre ht1)))
  have k₆ := k₄.trans (h₅.keeps.trans h₆.keeps)
  refine ⟨[a', a, b, c, e', e, f, g], t₆, h₁.bind (h₂.bind (h₃.bind (h₄.bind (h₅.bind
    (h₆.bind (.pure h₆.sound _)))))), ?_⟩
  have ea : (Sha256.round S k x).a = [Sha256.bigSigma0 S.a, Sha256.majority S.a S.b S.c, S.h,
      Sha256.bigSigma1 S.e, Sha256.choose S.e S.f S.g, k, x].sum := by
    simp only [Sha256.round, List.sum_cons, List.sum_nil, UInt32.add_zero]
    ac_rfl
  have ee : (Sha256.round S k x).e = [S.d, S.h, Sha256.bigSigma1 S.e,
      Sha256.choose S.e S.f S.g, k, x].sum := by
    simp only [Sha256.round, List.sum_cons, List.sum_nil, UInt32.add_zero]
    ac_rfl
  have hround : (Sha256.round S k x).words = [(Sha256.round S k x).a, S.a, S.b, S.c,
      (Sha256.round S k x).e, S.e, S.f, S.g] := rfl
  rw [hround, ea, ee]
  exact .cons ha' (.cons (k₆.wordIs ha) (.cons (k₆.wordIs hb) (.cons (k₆.wordIs hc)
    (.cons (h₆.keeps.wordIs he') (.cons (k₆.wordIs he) (.cons (k₆.wordIs hf)
      (.cons (k₆.wordIs hg) .nil)))))))

/-- Rounds one after the other carry those outside. -/
theorem rounds_emits (h : l.Sound s) {ws : List SignalWord} {S : Sha256.State}
    {ks : List (UInt32 × SignalWord)} {xs : List (UInt32 × UInt32)}
    (hs : (s.extend l).WordsAre ws S.words)
    (hk : List.Forall₂ (Both (fun _ ↦ Eq) WordIs (s.extend l)) ks xs) :
    ∃ r t, Emits (ks.foldlM (fun t kw ↦ round t kw.1 kw.2) ws) s l r t ∧
      (s.extend t).WordsAre r (xs.foldl (fun t kw ↦ Sha256.round t kw.1 kw.2) S).words := by
  induction ks generalizing l ws S xs with
  | nil =>
    cases hk
    exact ⟨ws, l, .pure h ws, hs⟩
  | cons k ks ih =>
    obtain ⟨constant, w⟩ := k
    cases hk with
    | @cons _ x _ xs hx hrest =>
      obtain ⟨k', x⟩ := x
      obtain ⟨rfl, hw⟩ := hx
      obtain ⟨r, t, hr, hrs⟩ := round_emits h hs hw
      obtain ⟨r', u, hu, hus⟩ := ih hr.sound hrs
        (hrest.imp fun _ _ h' ↦ And.imp_right hr.keeps.wordIs h')
      exact ⟨r', u, hr.bind hu, hus⟩

/-- The compression of a block carries the compression outside. -/
theorem compress_emits (h : l.Sound s) {ws block : List SignalWord} {S : Sha256.State}
    {xs : List UInt32} (hs : (s.extend l).WordsAre ws S.words)
    (hb : (s.extend l).WordsAre block xs) (hl : xs.length = 16) :
    ∃ r t, Emits (compress ws block) s l r t ∧
      (s.extend t).WordsAre r (Sha256.compress S xs).words := by
  have hb64 : (s.extend l).WordsAre block (xs.take 64) := by
    rwa [List.take_of_length_le (by omega)]
  obtain ⟨sched, t₁, h₁, hsched⟩ := schedule_emits h hb64 hl
  have hk : List.Forall₂ (Both (fun _ ↦ Eq) WordIs (s.extend t₁))
      (Sha256.roundConstants.zip sched)
      (Sha256.roundConstants.zip (Sha256.schedule 64 xs)) :=
    Both.zip (List.forall₂_same.2 fun _ _ ↦ rfl) hsched
  obtain ⟨last, t₂, h₂, hlast⟩ := rounds_emits h₁.sound (h₁.keeps.wordsAre hs) hk
  obtain ⟨r, t₃, h₃, hr⟩ := mapM_emits (f := fun p ↦ SignalWord.sum [p.1, p.2])
    (g := fun p : UInt32 × UInt32 ↦ [p.1, p.2].sum)
    (Both.keeps Keeps.wordIs Keeps.wordIs) Keeps.wordIs
    (fun hl hv ↦ sum_emits hl (.cons hv.1 (.cons hv.2 .nil))) h₂.sound
    (Both.zip (h₂.keeps.wordsAre (h₁.keeps.wordsAre hs)) hlast)
  refine ⟨r, t₃, h₁.bind (h₂.bind h₃), ?_⟩
  rw [← Sha256.State.words_add] at hr
  exact hr

/-- The run over consecutive blocks carries the run outside. -/
theorem absorb_emits (h : l.Sound s) {blocks : Nat} {ws message : List SignalWord}
    {S : Sha256.State} {xs : List UInt32} (hs : (s.extend l).WordsAre ws S.words)
    (hm : (s.extend l).WordsAre message xs) (hl : xs.length = 16 * blocks) :
    ∃ r t, Emits (absorb blocks ws message) s l r t ∧
      (s.extend t).WordsAre r (Sha256.absorb blocks S xs).words := by
  induction blocks generalizing l ws message S xs with
  | zero => exact ⟨ws, l, .pure h ws, hs⟩
  | succ blocks ih =>
    obtain ⟨r, t, hr, hrs⟩ := compress_emits h hs (List.forall₂_take 16 hm)
      (by rw [List.length_take]; omega)
    obtain ⟨r', u, hu, hus⟩ := ih hr.sound hrs
      (hr.keeps.wordsAre (List.forall₂_drop 16 hm)) (by rw [List.length_drop]; omega)
    exact ⟨r', u, hr.bind hu, hus⟩

/-- The starting state carries the starting state outside. -/
theorem initial_wordsAre : s.WordsAre initial Sha256.initial.words := by
  simp only [initial, Sha256.State.words, WordsAre, List.forall₂_map_left_iff,
    List.forall₂_same]
  exact fun x _ ↦ wordIs_constant x

/-- The words of bytes carry the words outside. -/
theorem words_wordsAre {os : List (Octet Signal)} {xs : Bytes}
    (h : List.Forall₂ s.OctetIs os xs) : s.WordsAre (words os) (Sha256.words xs) := by
  induction xs using Sha256.words.induct generalizing os with
  | case1 a b c d rest ih =>
    simp only [List.forall₂_cons_right_iff] at h
    obtain ⟨_, _, ha, ⟨_, _, hb, ⟨_, _, hc, ⟨_, _, hd, hrest, rfl⟩, rfl⟩, rfl⟩, rfl⟩ := h
    refine .cons ?_ (ih hrest)
    rw [WordIs, Sha256.bits_ofBytes]
    exact List.rel_append hd (List.rel_append hc (List.rel_append hb (List.rel_append ha .nil)))
  | case2 xs hx =>
    -- Fewer than four bytes are no word on either side.
    have hs : Sha256.words xs = [] := by
      rw [Sha256.words]
      exact hx
    have ho : words os = [] := by
      rw [words]
      rintro a b c d rest rfl
      simp only [List.forall₂_cons_left_iff] at h
      obtain ⟨_, _, -, ⟨_, _, -, ⟨_, _, -, ⟨_, _, -, -, rfl⟩, rfl⟩, rfl⟩, he⟩ := h
      exact hx _ _ _ _ _ he
    rw [hs, ho]
    exact .nil

/-- The bits of a word, byte by byte, carry the bits of its bytes. -/
theorem wordBits_signalsAre {w : SignalWord} {x : UInt32} (h : s.WordIs w x) :
    s.SignalsAre (wordBits w) ((Sha256.wordBytes x).flatMap fun b ↦ (Octet.ofByte b).toList) := by
  rw [Sha256.bits_wordBytes]
  exact List.rel_append (List.rel_append (List.rel_append (List.forall₂_drop 24 h)
    (List.forall₂_take 8 (List.forall₂_drop 16 h)))
    (List.forall₂_take 8 (List.forall₂_drop 8 h))) (List.forall₂_take 8 h)

/-- The signals of a byte carry its bits. -/
theorem signals_octetIs {b : Byte} {x : UInt8} (h : s.ByteIs b x) : s.OctetIs (signals s b) x := by
  have hs {a : Bit} {v : Bool} (ha : s.BitIs a v) : s.SignalIs ⟨a, (s.bit? a).getD false⟩ v :=
    ⟨by rw [ha.bit?]; rfl, ha⟩
  have hm : (signals s b).toList = b.toList.map fun a ↦ ⟨a, (s.bit? a).getD false⟩ := rfl
  rw [OctetIs, hm, SignalsAre, List.forall₂_map_left_iff]
  exact List.Forall₂.imp (fun _ _ ↦ hs) h

/-- A constant byte carries its bits. -/
theorem constantByte_octetIs (x : UInt8) : s.OctetIs (constantByte x) x := by
  have hm : (constantByte x).toList = (Octet.ofByte x).toList.map fun v ↦ ⟨.constant v, v⟩ := rfl
  rw [OctetIs, hm, SignalsAre, List.forall₂_map_left_iff, List.forall₂_same]
  exact fun v _ ↦ signalIs_constant v

/-- Rows that tie signals to bits of the same values hold. -/
private theorem ties_emits (h : l.Sound s) {as : List Signal} {bs : List Bit} {vs : List Bool}
    (ha : (s.extend l).SignalsAre as vs) (hb : (s.extend l).BitsAre bs vs) :
    ∃ t, Emits ((as.zip bs).forM fun p ↦
      row (p.1.bit.form.sub p.2.form) (Form.constant 1) []) s l () t := by
  induction vs generalizing l as bs with
  | nil =>
    cases ha
    exact ⟨l, .pure h ()⟩
  | cons v vs ih =>
    cases ha with
    | cons hav has =>
      cases hb with
      | cons hbv hbs =>
        obtain ⟨t, ht⟩ := row_eq_emits h hav.bit hbv
        obtain ⟨u, hu⟩ := ih ht.sound (ht.keeps.signalsAre has) (ht.keeps.bitsAre hbs)
        exact ⟨u, ht.bind hu⟩

/-- The rows of a digest gate hold when the second bytes are the digest of the first. -/
theorem digest_emits (h : l.Sound s) {message result : List Byte} {m : Bytes}
    (hm : s.BytesAre message m) (hr : s.BytesAre result (sha256 m).bytes) :
    ∃ t, Emits (digest s message result) s l () t := by
  have hk := s.keeps_extend l
  have hpadded : List.Forall₂ (s.extend l).OctetIs
      (message.map (signals s) ++ (Sha256.padding message.length).map constantByte)
      (m ++ Sha256.padding m.length) := by
    rw [hm.length_eq]
    refine List.rel_append ?_ ?_
    · rw [List.forall₂_map_left_iff]
      exact hm.imp fun _ _ hb ↦ hk.signalsAre (signals_octetIs hb)
    · rw [List.forall₂_map_left_iff, List.forall₂_same]
      exact fun x _ ↦ constantByte_octetIs x
  have hblocks : (Sha256.words (m ++ Sha256.padding m.length)).length
      = 16 * Sha256.blockCount m.length := by
    rw [Sha256.length_words, Sha256.length_padded]
    omega
  obtain ⟨state, t, ht, hstate⟩ := absorb_emits h initial_wordsAre (words_wordsAre hpadded) hblocks
  have hbits : (s.extend t).SignalsAre (state.flatMap wordBits)
      ((sha256 m).bytes.flatMap fun b ↦ (Octet.ofByte b).toList) := by
    rw [sha256, Sha256.State.toWord_bytes, List.flatMap_assoc]
    exact List.rel_flatMap hstate fun _ _ hw ↦ wordBits_signalsAre hw
  obtain ⟨u, hu⟩ := ties_emits ht.sound hbits ((hk.trans ht.keeps).bytesAre hr).flatMap_toList
  rw [← hm.length_eq] at ht
  exact ⟨u, ht.bind hu⟩

/-- The rows of a settled gate hold when the gate does. -/
theorem gate_emits (h : l.Sound s) {g : Gate} (hg : s.Settled g) (hh : s.holds? g = some true) :
    ∃ t, Emits (gate s g) s l () t := by
  cases g with
  | product a b c =>
    obtain ⟨⟨x, hx⟩, ⟨y, hy⟩, z, hz⟩ := hg
    have hk := s.keeps_extend l
    refine row_emits h (hk.eval? hx) (hk.eval? hy) (hk.eval? hz) ?_
    simpa [holds?, hx, hy, hz] using hh
  | digest message result =>
    obtain ⟨⟨m, hm⟩, d, hd⟩ := hg
    have he : (sha256 m).bytes = d := by simpa [holds?, hm.bytes?, hd.bytes?] using hh
    exact digest_emits h hm (he ▸ hd)

/-- The rows of settled gates hold when the gates do. -/
theorem gates_emits (h : l.Sound s) {gs : List Gate} (hg : ∀ g ∈ gs, s.Settled g)
    (hh : ∀ g ∈ gs, s.holds? g = some true) : ∃ t, Emits (gs.forM (gate s)) s l () t := by
  induction gs generalizing l with
  | nil => exact ⟨l, .pure h ()⟩
  | cons g gs ih =>
    obtain ⟨t, ht⟩ := gate_emits h (hg g (by simp)) (hh g (by simp))
    obtain ⟨u, hu⟩ := ih ht.sound (fun g' hg' ↦ hg g' (by simp [hg']))
      fun g' hg' ↦ hh g' (by simp [hg'])
    exact ⟨u, ht.bind hu⟩

end Lower

/-- All rows of a satisfied layout hold. -/
theorem Layout.Filled.lower_sound (h : s.Filled) (hs : s.Satisfied) : s.lower.Sound s := by
  have h₀ : Lowering.Sound s ⟨s.witnesses, #[], #[]⟩ := ⟨by simp [h.witnesses], by simp⟩
  obtain ⟨t, ht⟩ := Lower.gates_emits h₀
    (fun g (hg : g ∈ s.gates.toList) ↦ h.settled g (by simpa using hg))
    fun g hg ↦ hs g (by simpa using hg)
  have hl : s.lower = t := congrArg Prod.snd ht.run
  exact hl ▸ ht.sound

end Circuit

end TreeProver
