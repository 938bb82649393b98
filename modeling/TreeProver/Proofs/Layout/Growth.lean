import TreeProver.Proofs.Layout.Value

/-!
# How layouts grow

A layout is filled when every reserved column has its value and every gate speaks of values that are
there. Laying out with values keeps a layout filled: it only adds columns and gates. `Grows` says
this together with the demand that the new gates make, and `Lays` says it of an action: the action
succeeds, and the layout grows by that demand. Demands add up along a sequence of actions.
-/

namespace TreeProver.Circuit

open scoped Fin.CommRing

namespace Layout

variable {s t u : Layout} {p q : Prop}

/-- The values that a gate speaks of are there, and where it speaks of bytes they are bytes. -/
def Settled (s : Layout) : Gate → Prop
  | .product a b c =>
    (∃ x, s.eval? a = some x) ∧ (∃ y, s.eval? b = some y) ∧ ∃ z, s.eval? c = some z
  | .digest message digest => (∃ xs, s.BytesAre message xs) ∧ ∃ ys, s.BytesAre digest ys

/-- Every reserved column has its value, and every gate is settled. -/
structure Filled (s : Layout) : Prop where
  mode : s.mode ≠ .setup
  inputs : s.inputValues.size = s.inputs
  witnesses : s.witnessValues.size = s.witnesses
  settled : ∀ g ∈ s.gates, s.Settled g

/-- The demands of all gates are met. -/
def Satisfied (s : Layout) : Prop := ∀ g ∈ s.gates, s.holds? g = some true

/-- The second layout is the filled first one with further columns and with gates that together
demand `p`. -/
structure Grows (s : Layout) (p : Prop) (t : Layout) : Prop where
  mode : t.mode = s.mode
  keeps : s.Keeps t
  filled : t.Filled
  satisfied : t.Satisfied ↔ s.Satisfied ∧ p

/-- A settled gate either holds or does not. -/
theorem Settled.holds? {g : Gate} (h : s.Settled g) : ∃ b, s.holds? g = some b := by
  cases g with
  | product a b c =>
    obtain ⟨⟨x, hx⟩, ⟨y, hy⟩, z, hz⟩ := h
    exact ⟨_, by simp [Layout.holds?, hx, hy, hz]; rfl⟩
  | digest message digest =>
    obtain ⟨⟨xs, hx⟩, ys, hy⟩ := h
    exact ⟨_, by simp [Layout.holds?, hx.bytes?, hy.bytes?]; rfl⟩

/-- A gate that is settled stays settled. -/
theorem Settled.keeps {g : Gate} (h : s.Settled g) (hk : s.Keeps t) : t.Settled g := by
  cases g with
  | product a b c =>
    obtain ⟨⟨x, hx⟩, ⟨y, hy⟩, z, hz⟩ := h
    exact ⟨⟨x, hk.eval? hx⟩, ⟨y, hk.eval? hy⟩, z, hk.eval? hz⟩
  | digest message digest =>
    obtain ⟨⟨xs, hx⟩, ys, hy⟩ := h
    exact ⟨⟨xs, hk.bytesAre hx⟩, ys, hk.bytesAre hy⟩

/-- Whether a settled gate holds does not change. -/
theorem Settled.holds?_eq {g : Gate} (h : s.Settled g) (hk : s.Keeps t) :
    t.holds? g = s.holds? g := by
  cases g with
  | product a b c =>
    obtain ⟨⟨x, hx⟩, ⟨y, hy⟩, z, hz⟩ := h
    simp [Layout.holds?, hx, hy, hz, hk.eval? hx, hk.eval? hy, hk.eval? hz]
  | digest message digest =>
    obtain ⟨⟨xs, hx⟩, ys, hy⟩ := h
    simp [Layout.holds?, hx.bytes?, hy.bytes?, (hk.bytesAre hx).bytes?, (hk.bytesAre hy).bytes?]

/-- A filled layout grows by nothing. -/
theorem Grows.refl (h : s.Filled) : s.Grows True s :=
  ⟨rfl, Keeps.refl s, h, by simp⟩

/-- Growing twice demands both. -/
theorem Grows.trans (h : s.Grows p t) (h' : t.Grows q u) : s.Grows (p ∧ q) u where
  mode := h'.mode.trans h.mode
  keeps := h.keeps.trans h'.keeps
  filled := h'.filled
  satisfied := by rw [h'.satisfied, h.satisfied, and_assoc]

/-- The demand of a growth may be put in other words. -/
theorem Grows.congr (h : s.Grows p t) (hpq : p ↔ q) : s.Grows q t :=
  ⟨h.mode, h.keeps, h.filled, by rw [h.satisfied, hpq]⟩

/-- A layout with nothing in it is filled. -/
theorem filled_empty (mode : Mode) (h : mode ≠ .setup) : (empty mode).Filled :=
  ⟨h, rfl, rfl, by simp [empty]⟩

/-- A layout with nothing in it demands nothing. -/
theorem satisfied_empty (mode : Mode) : (empty mode).Satisfied := by simp [Satisfied, empty]

/-- Which gate is the first that does not hold, if any, is known when all are settled. -/
private theorem firstViolatedFrom_settled (i : Nat) (gs : List Gate) (h : ∀ g ∈ gs, s.Settled g) :
    (s.firstViolatedFrom i gs = .ok none ∧ ∀ g ∈ gs, s.holds? g = some true) ∨
      (∃ j, s.firstViolatedFrom i gs = .ok (some j)) ∧ ¬ ∀ g ∈ gs, s.holds? g = some true := by
  induction gs generalizing i with
  | nil => exact .inl ⟨rfl, by simp⟩
  | cons g gs ih =>
    obtain ⟨b, hb⟩ := (h g (by simp)).holds?
    cases b with
    | true =>
      have ih := ih (i + 1) fun g' hg' ↦ h g' (by simp [hg'])
      simpa [firstViolatedFrom, hb] using ih
    | false => exact .inr ⟨⟨i, by simp [firstViolatedFrom, hb]⟩, by simp [hb]⟩

/-- A filled layout that is laid out for proving is satisfied, and then nothing is violated, or it
is not, and then some gate is the first violated one. -/
theorem Filled.firstViolated (h : s.Filled) (hm : s.mode = .proving) :
    (s.firstViolated = .ok none ∧ s.Satisfied) ∨
      (∃ i, s.firstViolated = .ok (some i)) ∧ ¬ s.Satisfied := by
  have hs : s.Satisfied ↔ ∀ g ∈ s.gates.toList, s.holds? g = some true := by simp [Satisfied]
  have hv := firstViolatedFrom_settled 0 s.gates.toList (s := s)
    fun g hg ↦ h.settled g (by simpa using hg)
  rw [hs, Layout.firstViolated, hm]
  exact hv

/-- Checking a filled layout that is laid out for proving says whether it is satisfied. -/
theorem Filled.isSatisfied_eq (h : s.Filled) (hm : s.mode = .proving) {b : Bool}
    (hb : s.Satisfied ↔ b = true) : s.isSatisfied = .ok b := by
  rcases h.firstViolated hm with ⟨hv, hs⟩ | ⟨⟨i, hv⟩, hs⟩
  · rw [hb.1 hs, isSatisfied, hv]
    rfl
  · have hf : b = false := by
      cases b with
      | false => rfl
      | true => exact absurd (hb.2 rfl) hs
    rw [hf, isSatisfied, hv]
    rfl

/-- A filled layout that is laid out for proving passes the check exactly when it is satisfied. -/
theorem Filled.isSatisfied_iff (h : s.Filled) (hm : s.mode = .proving) :
    s.isSatisfied = .ok true ↔ s.Satisfied := by
  rcases h.firstViolated hm with ⟨hv, hs⟩ | ⟨⟨i, hv⟩, hs⟩
  · simp [isSatisfied, hv, hs, Except.map]
  · simp [isSatisfied, hv, hs, Except.map]

end Layout

namespace Synth

open Layout

variable {α β : Type} {s t u : Layout} {p q : Prop}

/-- Laying out a sequence of actions. -/
theorem run_bind (act : Synth α) (f : α → Synth β) (s : Layout) :
    (act >>= f).run s = match act.run s with
      | (.ok a, t) => (f a).run t
      | (.error e, t) => (.error e, t) := by
  have h : (act >>= f).run s = ((act.run s).1.casesOn (motive := fun _ ↦ Except Error β × Layout)
      (fun e ↦ (.error e, (act.run s).2)) fun a ↦ (f a).run (act.run s).2) := by
    show (ExceptT.bindCont f (act.run s).1) (act.run s).2 = _
    cases (act.run s).1 <;> rfl
  rw [h]
  rcases act.run s with ⟨_ | _, t⟩ <;> rfl

/-- A sequence succeeds exactly when both parts do, one after the other. -/
theorem run_bind_ok_iff {act : Synth α} {f : α → Synth β} {b : β} :
    (act >>= f).run s = (.ok b, u) ↔
      ∃ a t, act.run s = (.ok a, t) ∧ (f a).run t = (.ok b, u) := by
  rw [run_bind]
  rcases act.run s with ⟨e | a, t⟩
  · constructor
    · intro h
      exact absurd (congrArg Prod.fst h) (by simp)
    · rintro ⟨a, t', h, -⟩
      exact absurd (congrArg Prod.fst h) (by simp)
  · refine ⟨fun h ↦ ⟨a, t, rfl, h⟩, ?_⟩
    rintro ⟨a', t', h, h'⟩
    obtain ⟨ha, rfl⟩ := Prod.mk.inj h
    obtain rfl := Except.ok.inj ha
    exact h'

/-- The action succeeds with `a`, and the layout grows to `t` by the demand `p`. -/
structure Lays (act : Synth α) (s : Layout) (p : Prop) (a : α) (t : Layout) : Prop where
  run : act.run s = (.ok a, t)
  grows : s.Grows p t

/-- Doing nothing succeeds and demands nothing. -/
theorem Lays.pure (h : s.Filled) (a : α) : Lays (pure a) s True a s := ⟨rfl, .refl h⟩

/-- The demands of a sequence of actions add up. -/
theorem Lays.bind {act : Synth α} {f : α → Synth β} {a : α} {b : β} (h : Lays act s p a t)
    (h' : Lays (f a) t q b u) : Lays (act >>= f) s (p ∧ q) b u :=
  ⟨by rw [run_bind, h.run]; exact h'.run, h.grows.trans h'.grows⟩

/-- The demand of an action may be put in other words. -/
theorem Lays.congr {act : Synth α} {a : α} (h : Lays act s p a t) (hpq : p ↔ q) :
    Lays act s q a t := ⟨h.run, h.grows.congr hpq⟩

/-- An action has one outcome. -/
theorem Lays.unique {act : Synth α} {a b : α} (h : Lays act s p a t)
    (h' : act.run s = (.ok b, u)) : b = a ∧ u = t := by
  rw [h.run] at h'
  obtain ⟨ha, rfl⟩ := Prod.mk.inj h'
  exact ⟨(Except.ok.inj ha).symm, rfl⟩

/-- Behind a satisfied layout for proving, checking says whether the demand of the action is met. -/
theorem Lays.isSatisfied_eq {act : Synth α} {a : α} (h : Lays act s p a t)
    (hm : s.mode = .proving) (hs : s.Satisfied) {b : Bool} (hb : p ↔ b = true) :
    t.isSatisfied = .ok b := by
  refine h.grows.filled.isSatisfied_eq (h.grows.mode.trans hm) ?_
  rw [h.grows.satisfied, ← hb]
  exact and_iff_right hs

/-- A computation that does not fail lays nothing out. -/
theorem Lays.ofExcept {r : Except Error α} {a : α} (h : s.Filled) (hr : r = .ok a) :
    Lays (liftM r) s True a s := by
  subst hr
  exact ⟨rfl, .refl h⟩

/-- Reading the layout does not change it. -/
theorem run_get (s : Layout) : (get : Synth Layout).run s = (.ok s, s) := rfl

/-- Reading the layout first demands nothing. -/
theorem Lays.get {f : Layout → Synth α} {a : α} (h : Lays (f s) s p a t) :
    Lays (get >>= f) s p a t := ⟨by rw [run_bind, run_get]; exact h.run, h.grows⟩

/-- A new column for a witness takes the next free number and its value. -/
theorem run_newWitness (h : s.mode ≠ .setup) (x : Fr) :
    (newWitness (some x)).run s = (.ok (.witness s.witnesses),
      { s with witnesses := s.witnesses + 1, witnessValues := s.witnessValues.push x }) := by
  obtain ⟨mode, inputs, witnesses, inputValues, witnessValues, gates⟩ := s
  cases mode with
  | setup => exact absurd rfl h
  | proving => rfl
  | valuesOnly => rfl

/-- A new column for a public input takes the next free number and its value. -/
theorem run_newInput (h : s.mode ≠ .setup) (x : Fr) :
    (newInput (some x)).run s = (.ok (.input s.inputs),
      { s with inputs := s.inputs + 1, inputValues := s.inputValues.push x }) := by
  obtain ⟨mode, inputs, witnesses, inputValues, witnessValues, gates⟩ := s
  cases mode with
  | setup => exact absurd rfl h
  | proving => rfl
  | valuesOnly => rfl

/-- A filled layout that gets further columns with values grows without a demand. -/
private theorem grows_of_columns (h : s.Filled) (hm : t.mode = s.mode) (hk : s.Keeps t)
    (hi : t.inputValues.size = t.inputs) (hw : t.witnessValues.size = t.witnesses)
    (hg : t.gates = s.gates) : s.Grows True t where
  mode := hm
  keeps := hk
  filled := ⟨hm ▸ h.mode, hi, hw, fun g hgt ↦ (h.settled g (hg ▸ hgt)).keeps hk⟩
  satisfied := by
    rw [and_true, Satisfied, Satisfied, hg]
    exact forall₂_congr fun g hgs ↦ by rw [(h.settled g hgs).holds?_eq hk]

/-- An array keeps its elements when one is added behind them. -/
private theorem getElem?_push_of_some {xs : Array Fr} {i : Nat} {x y : Fr}
    (h : xs[i]? = some y) : (xs.push x)[i]? = some y := by
  obtain ⟨hi, rfl⟩ := Array.getElem?_eq_some_iff.1 h
  exact Array.getElem?_push_lt hi

/-- A new witness has the value that it is given. -/
theorem newWitness_lays (h : s.Filled) (x : Fr) :
    ∃ t, Lays (newWitness (some x)) s True (.witness s.witnesses) t ∧
      t.value? (.witness s.witnesses) = some x := by
  refine ⟨_, ⟨run_newWitness h.mode x, grows_of_columns h rfl ?_ h.inputs ?_ rfl⟩, ?_⟩
  · intro c y hy
    cases c with
    | one => exact hy
    | input i => exact hy
    | witness i => exact getElem?_push_of_some hy
  · simp [h.witnesses]
  · simp [value?, ← h.witnesses]

/-- A new public input has the value that it is given. -/
theorem newInput_lays (h : s.Filled) (x : Fr) :
    ∃ t, Lays (newInput (some x)) s True (.input s.inputs) t ∧
      t.value? (.input s.inputs) = some x := by
  refine ⟨_, ⟨run_newInput h.mode x, grows_of_columns h rfl ?_ ?_ h.witnesses rfl⟩, ?_⟩
  · intro c y hy
    cases c with
    | one => exact hy
    | input i => exact getElem?_push_of_some hy
    | witness i => exact hy
  · simp [h.inputs]
  · simp [value?, ← h.inputs]

/-- A settled gate makes the demand that it holds. -/
theorem constrain_lays (h : s.Filled) {g : Gate} (hg : s.Settled g)
    (hp : s.holds? g = some true ↔ p) : ∃ t, Lays (constrain g) s p () t := by
  let t : Layout := { s with gates := s.gates.push g }
  have hk : s.Keeps t := fun c x hx ↦ hx
  have hmem (g' : Gate) : g' ∈ t.gates ↔ g' ∈ s.gates ∨ g' = g := by simp [t]
  have hf : t.Filled := by
    refine ⟨h.mode, h.inputs, h.witnesses, fun g' hg' ↦ ?_⟩
    rcases (hmem g').1 hg' with hs | rfl
    · exact (h.settled g' hs).keeps hk
    · exact hg.keeps hk
  refine ⟨t, rfl, rfl, hk, hf, ?_⟩
  constructor
  · intro ht
    refine ⟨fun g' hg' ↦ ?_, ?_⟩
    · rw [← (h.settled g' hg').holds?_eq hk]
      exact ht g' ((hmem g').2 (.inl hg'))
    · rw [← hp, ← hg.holds?_eq hk]
      exact ht g ((hmem g).2 (.inr rfl))
  · rintro ⟨hs, hgp⟩ g' hg'
    rcases (hmem g').1 hg' with hm | rfl
    · rw [(h.settled g' hm).holds?_eq hk]
      exact hs g' hm
    · rw [hg.holds?_eq hk]
      exact hp.2 hgp

/-- A product gate demands that the product of the first two values is the third. -/
theorem constrain_product_lays (h : s.Filled) {a b c : Form} {x y z : Fr}
    (ha : s.eval? a = some x) (hb : s.eval? b = some y) (hc : s.eval? c = some z) :
    ∃ t, Lays (constrain (.product a b c)) s (x * y = z) () t :=
  constrain_lays h ⟨⟨x, ha⟩, ⟨y, hb⟩, z, hc⟩ (by simp [holds?, ha, hb, hc])

/-- Forms one of which depends on a value are demanded to be equal. -/
theorem equate_lays (h : s.Filled) {a b : Form} {x y : Fr} (ha : s.eval? a = some x)
    (hb : s.eval? b = some y) (hc : (a.isConstant && b.isConstant) = false) :
    ∃ t, Lays (equate a b) s (x = y) () t := by
  have hz : s.eval? [] = some 0 := rfl
  rw [equate, hc]
  split
  · contradiction
  · split
    · obtain ⟨t, ht⟩ := constrain_product_lays h (eval?_sub hb ha) (eval?_constant 1) hz
      exact ⟨t, ht.congr (by rw [mul_one, sub_eq_zero, eq_comm])⟩
    · obtain ⟨t, ht⟩ := constrain_product_lays h (eval?_sub ha hb) (eval?_constant 1) hz
      exact ⟨t, ht.congr (by rw [mul_one, sub_eq_zero])⟩

/-- An allocation for every element of a list: what comes out stands for the elements one by one. -/
theorem mapM_lays {f : α → Synth β} {stands : Layout → β → α → Prop} {q : β → Prop}
    (hk : ∀ {s t : Layout}, s.Keeps t → ∀ {y x}, stands s y x → stands t y x)
    (hf : ∀ {s : Layout} (x), s.Filled → ∃ y t, Lays (f x) s True y t ∧ stands t y x ∧ q y)
    (h : s.Filled) (xs : List α) :
    ∃ ys t, Lays (xs.mapM f) s True ys t ∧ List.Forall₂ (stands t) ys xs ∧ ∀ y ∈ ys, q y := by
  induction xs generalizing s with
  | nil => exact ⟨[], s, Lays.pure h [], .nil, by simp⟩
  | cons x xs ih =>
    obtain ⟨y, t, hy, hsy, hqy⟩ := hf x h
    obtain ⟨ys, u, hys, hsys, hqys⟩ := ih hy.grows.filled
    have hp : Lays (pure (y :: ys)) u True (y :: ys) u := .pure hys.grows.filled _
    refine ⟨y :: ys, u, ?_, .cons (hk hys.grows.keeps hsy) hsys, by simpa using ⟨hqy, hqys⟩⟩
    rw [List.mapM_cons]
    exact (hy.bind (hys.bind hp)).congr (by simp)

/-- A choice for every pair of two lists: what comes out stands for one of the lists. -/
theorem choices_lays {f : β × β → Synth β} {stands : Layout → β → α → Prop} {v : Bool}
    (hk : ∀ {s t : Layout}, s.Keeps t → ∀ {y x}, stands s y x → stands t y x)
    (hf : ∀ {t : Layout} {y n : β} {a b : α}, t.Filled → s.Keeps t → stands t y a →
      stands t n b → ∃ r u, Lays (f (y, n)) t True r u ∧ stands u r (if v then a else b))
    (h : s.Filled) {ys ns : List β} {as bs : List α} (hl : ys.length = ns.length)
    (hy : List.Forall₂ (stands s) ys as) (hn : List.Forall₂ (stands s) ns bs) :
    ∃ rs t, Lays ((ys.zip ns).mapM f) s True rs t ∧ rs.length = ys.length ∧
      List.Forall₂ (stands t) rs (if v then as else bs) := by
  induction ys generalizing s ns as bs with
  | nil =>
    obtain rfl := List.length_eq_zero_iff.1 hl.symm
    cases hy
    cases hn
    exact ⟨[], s, .pure h _, rfl, by simp⟩
  | cons y ys ih =>
    cases hy with
    | cons hya hys =>
      cases hn with
      | nil => simp at hl
      | cons hnb hns =>
        obtain ⟨r, t, hr, hrs⟩ := hf h (.refl s) hya hnb
        have hst := hr.grows.keeps
        obtain ⟨rs, u, hu, hlen, hrsv⟩ := ih (fun hf' hk' ↦ hf hf' (hst.trans hk'))
          hr.grows.filled (by simpa using hl) (hys.imp fun _ _ h' ↦ hk hst h')
          (hns.imp fun _ _ h' ↦ hk hst h')
        have hp : Lays (pure (r :: rs)) u True (r :: rs) u := .pure hu.grows.filled _
        have hru := hk hu.grows.keeps hrs
        refine ⟨r :: rs, u, ?_, by simp [hlen], ?_⟩
        · rw [List.zip_cons_cons, List.mapM_cons]
          exact (hr.bind (hu.bind hp)).congr (by simp)
        · cases v
          · exact .cons hru hrsv
          · exact .cons hru hrsv

end Synth

end TreeProver.Circuit
