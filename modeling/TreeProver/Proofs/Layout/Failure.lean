import TreeProver.Proofs.Layout.Path

/-!
# What cannot be laid out

A value that is missing fails every allocation that needs it, and a byte string of the wrong length
fails whatever asks for another. Both depend only on what is allocated and not on the layout, so an
action over a filled layout either fails or lays something out.
-/

namespace TreeProver.Circuit

open Layout Synth

variable {α β : Type} {s t : Layout} {p : Prop}

namespace Synth

/-- The action does not succeed on the layout. -/
def Fails (act : Synth α) (s : Layout) : Prop := ∃ e t, act.run s = (.error e, t)

/-- A sequence whose first action fails fails. -/
theorem Fails.bind {act : Synth α} {f : α → Synth β} (h : Fails act s) : Fails (act >>= f) s := by
  obtain ⟨e, t, h⟩ := h
  exact ⟨e, t, by rw [run_bind, h]⟩

/-- A sequence fails when what follows its first action fails. -/
theorem Lays.bind_fails {act : Synth α} {f : α → Synth β} {a : α} (h : Lays act s p a t)
    (h' : Fails (f a) t) : Fails (act >>= f) s := by
  obtain ⟨e, u, h'⟩ := h'
  exact ⟨e, u, by rw [run_bind, h.run]; exact h'⟩

/-- A computation that fails fails as an action. -/
theorem Fails.ofExcept {r : Except Error α} {e : Error} (hr : r = .error e) :
    Fails (liftM r) s := by
  subst hr
  exact ⟨e, s, rfl⟩

/-- A failure fails. -/
theorem Fails.throw (e : Error) : Fails (throw e : Synth α) s := ⟨e, s, rfl⟩

/-- An action that succeeds does not fail. -/
theorem Fails.not_ok {act : Synth α} {a : α} (h : Fails act s) : act.run s ≠ (.ok a, t) := by
  obtain ⟨e, u, h⟩ := h
  intro h'
  rw [h] at h'
  exact absurd (congrArg Prod.fst h') (by simp)

/-- A witness without a value fails. -/
theorem newWitness_fails (h : s.mode ≠ .setup) : Fails (newWitness none) s := by
  refine ⟨.synthesis .assignmentMissing, { s with witnesses := s.witnesses + 1 }, ?_⟩
  obtain ⟨mode, inputs, witnesses, inputValues, witnessValues, gates⟩ := s
  cases mode with
  | setup => exact absurd rfl h
  | proving => rfl
  | valuesOnly => rfl

/-- A public input without a value fails. -/
theorem newInput_fails (h : s.mode ≠ .setup) : Fails (newInput none) s := by
  refine ⟨.synthesis .assignmentMissing, { s with inputs := s.inputs + 1 }, ?_⟩
  obtain ⟨mode, inputs, witnesses, inputValues, witnessValues, gates⟩ := s
  cases mode with
  | setup => exact absurd rfl h
  | proving => rfl
  | valuesOnly => rfl

/-- A public input that is reserved in a filled layout has the value that it is given. -/
theorem newInput_ok (h : s.Filled) {value : Option Fr} {c : Column}
    (hr : (newInput value).run s = (.ok c, t)) :
    ∃ x, value = some x ∧ c = .input s.inputs ∧ t.inputs = s.inputs + 1 ∧ s.Grows True t ∧
      t.value? c = some x := by
  cases value with
  | none => exact absurd hr (newInput_fails h.mode).not_ok
  | some x =>
    obtain ⟨t', ht, hv⟩ := newInput_lays h x
    obtain ⟨rfl, rfl⟩ := ht.unique hr
    rw [run_newInput h.mode] at hr
    exact ⟨x, rfl, rfl, congrArg Layout.inputs (Prod.mk.inj hr).2.symm, ht.grows, hv⟩

end Synth

/-- A witness byte without a value fails. -/
theorem Byte.alloc_fails (h : s.mode ≠ .setup) : Fails (Byte.alloc .witness none) s :=
  Fails.bind (Fails.bind (newWitness_fails h))

/-- Witness bytes without values fail unless there are none of them. -/
theorem Byte.allocAll_fails (h : s.mode ≠ .setup) {length : Nat} (hl : length ≠ 0) :
    Fails (Byte.allocAll .witness length none) s := by
  obtain ⟨n, rfl⟩ := Nat.exists_eq_succ_of_ne_zero hl
  have he : Byte.allocAll .witness (n + 1) none
      = (List.replicate (n + 1) none).mapM (Byte.alloc .witness) := rfl
  rw [he, List.replicate_succ, List.mapM_cons]
  exact Fails.bind (Byte.alloc_fails h)

/-- Witness bytes with values fail unless there are as many as asked for. -/
theorem Byte.allocAll_fails_of_length {how : Allocation} {length : Nat} {xs : Bytes}
    (hl : xs.length ≠ length) : Fails (Byte.allocAll how length (some xs)) s := by
  simp only [Byte.allocAll, hl, ne_eq, not_false_eq_true, ↓reduceIte]
  exact Fails.bind (Fails.throw _)

/-- Bytes of another number than 32 are no node. -/
theorem Node.ofBytes_error {bs : List Byte} (h : bs.length ≠ 32) :
    ofBytes bs = .error (.invalidLength "digest" Word.size bs.length) := dif_neg h

/-- More than eight bytes are no index. -/
theorem Index.ofBytes_error {bs : List Byte} (h : 8 < bs.length) :
    ofBytes bs = .error (.invalidLength "u64" size bs.length) := if_neg (Nat.not_le.2 h)

/-- Following a path fails when it is too deep, and when the index has a constant zero at its
depth. -/
theorem Node.restoreAt_fails {leaf : Node} {path : List Node} {i : Index}
    (h : ∀ b ∈ i.bits[path.length]?, b = .constant false) : Fails (restoreAt leaf path i) s := by
  by_cases hd : Gindex.maxDepth ≤ path.length
  · simp only [restoreAt, hd, ↓reduceIte]
    exact Fails.bind (Fails.throw _)
  · have hlt : path.length < i.bits.length := by
      rw [i.length_bits]
      exact Nat.lt_of_not_le hd
    have hb := h i.bits[path.length] (List.getElem?_eq_getElem hlt)
    have hf : Fails (demandDepth i path.length) s := by
      rw [demandDepth, List.drop_eq_getElem_cons hlt, hb]
      exact Fails.bind (Fails.throw _)
    simp only [restoreAt, hd, ↓reduceIte]
    exact Fails.bind hf

/-- The bits of an index above its bytes are constant zeros. -/
theorem Index.eq_zero_of_le {bs : List Byte} {i : Index} {k : Nat}
    (hi : i.bits = bs.reverse.flatMap Octet.toList
      ++ List.replicate (64 - 8 * bs.length) (.constant false)) (hk : 8 * bs.length ≤ k) :
    ∀ b ∈ i.bits[k]?, b = .constant false := by
  intro b hb
  rw [hi, List.getElem?_append_right (by rwa [length_bits_of_bytes])] at hb
  exact List.eq_of_mem_replicate (List.mem_of_getElem? hb)

end TreeProver.Circuit
