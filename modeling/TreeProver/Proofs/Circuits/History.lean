import TreeProver.Build
import TreeProver.Proofs.Circuits.States

/-!
# The history of a statement

A statement is called again and again, with inputs to record and inputs to prove. The computation in
it takes an input before its output is computed and the commitments are recorded, and each of these
steps may fail, as may the proof that follows them. A computation that forgets the inputs before the
last one, and has an output for every input that it takes, never stops between these steps. A
statement of such a computation is at any time in the state in which the input that it accepted last
would have left a new one.
-/

namespace TreeProver

open Circuit

variable {γ : Type} [Computation γ]

/-- The computation takes every input as if it had taken none before, and it has an output for each
one that it takes. -/
structure Forgetful (c : γ) : Prop where
  again : ∀ {x y : Bytes} {c' : γ}, Computation.assign c x = .ok c' →
    Computation.assign c' y = Computation.assign c y
  output : ∀ {x : Bytes} {c' : γ}, Computation.assign c x = .ok c' → ∃ output, ∀ i o : Option Word,
    (⟨i, o, c'⟩ : Committed γ).output = .ok output

namespace Committed

/-- A call with an input, which is only recorded or also proved. -/
inductive Call where
  | setInput (input : Bytes)
  | prove (b : Build) (input : Bytes)

/-- The input of a call. -/
def Call.input : Call → Bytes
  | .setInput input | .prove _ input => input

/-- The input of a call if the statement accepts it. -/
def accepted? (f : Committed γ) (call : Call) : Option Bytes :=
  match (f.setInput call.input).1 with
  | .ok _ => some call.input
  | .error _ => none

/-- The input of a call that goes through has been accepted. -/
theorem accepted?_of_ok {f g : Committed γ} {call : Call}
    (h : f.setInput call.input = (.ok (), g)) :
    f.accepted? call = some call.input := by
  rw [accepted?, h]

/-- The input of a call that fails has not been accepted. -/
theorem accepted?_of_error {f g : Committed γ} {call : Call} {e : Error}
    (h : f.setInput call.input = (.error e, g)) : f.accepted? call = none := by
  rw [accepted?, h]

/-- The second statement is what an input leaves of the first; without an input it is the first. -/
def IsAfter (f : Committed γ) : Option Bytes → Committed γ → Prop
  | none, g => g = f
  | some input, g => f.setInput input = (.ok (), g)

variable {f g : Committed γ} {last : Option Bytes}

/-- Whatever input was accepted last, the next one is refused without a change, or it is accepted
and leaves what it would leave of the new statement. -/
theorem IsAfter.setInput_cases (hf : Forgetful f.computation) (h : f.IsAfter last g)
    (input : Bytes) :
    (∃ e, f.setInput input = (.error e, f) ∧ g.setInput input = (.error e, g)) ∨
      ∃ g', f.setInput input = (.ok (), g') ∧ g.setInput input = (.ok (), g') := by
  have hagain : Computation.assign g.computation input
      = Computation.assign f.computation input := by
    cases last with
    | none => rw [show g = f from h]
    | some x =>
      obtain ⟨c, output, hc, -, rfl⟩ := setInput_ok_iff.1 h
      exact hf.again hc
  cases hc : Computation.assign f.computation input with
  | error e =>
    refine .inl ⟨e, ?_, ?_⟩
    · simp only [setInput, hc]
    · simp only [setInput, hagain, hc]
  | ok c =>
    obtain ⟨output, ho⟩ := hf.output hc
    refine .inr ⟨_, setInput_ok_iff.2 ⟨c, output, hc, ho _ _, rfl⟩, ?_⟩
    exact setInput_ok_iff.2 ⟨c, output, hagain.trans hc, ho _ _, rfl⟩

variable [Backend]

/-- What a call leaves of a statement. -/
def called (f : Committed γ) : Call → Committed γ
  | .setInput input => (f.setInput input).2
  | .prove b input => (b.proveInput f input).2

/-- What calls leave of a statement, one after the other. -/
def after (f : Committed γ) (calls : List Call) : Committed γ := calls.foldl called f

/-- The input of the last of the calls that are accepted, if any is. -/
def lastInput? (f : Committed γ) : List Call → Option Bytes
  | [] => none
  | call :: calls => (lastInput? (f.called call) calls).or (f.accepted? call)

/-- A call leaves what its input leaves; what becomes of the proof does not matter. -/
theorem called_eq (f : Committed γ) (call : Call) : f.called call = (f.setInput call.input).2 := by
  cases call with
  | setInput input => rfl
  | prove b input =>
    rw [called, Build.proveInput, Call.input]
    split
    · next h => rw [h]
    · next h => rw [h]

/-- After a call that is accepted its input is the last one; after one that is refused nothing has
changed. -/
theorem IsAfter.called (hf : Forgetful f.computation) (h : f.IsAfter last g) (call : Call) :
    f.IsAfter ((g.accepted? call).or last) (g.called call) := by
  rw [called_eq]
  rcases h.setInput_cases hf call.input with ⟨e, -, hg⟩ | ⟨g', hf', hg⟩
  · rw [accepted?_of_error hg, hg]
    exact h
  · rw [accepted?_of_ok hg, hg]
    exact hf'

/-- After any calls a statement is what the input that was accepted last leaves, be it that of one
of the calls or one from before. -/
theorem IsAfter.after (hf : Forgetful f.computation) (h : f.IsAfter last g) (calls : List Call) :
    f.IsAfter ((g.lastInput? calls).or last) (g.after calls) := by
  induction calls generalizing g last with
  | nil => exact h
  | cons call calls ih =>
    rw [lastInput?, Option.or_assoc]
    exact ih (h.called hf call)

/-- After an input that is accepted and one that is refused, the first one is the last one that was
accepted. -/
theorem lastInput?_of_refused {x y : Bytes} {e : Error} (hx : f.setInput x = (.ok (), g))
    (hy : Computation.assign g.computation y = .error e) :
    f.lastInput? [.setInput x, .setInput y] = some x := by
  have hrefused : g.setInput y = (.error e, g) := by rw [setInput, hy]
  rw [lastInput?, lastInput?, lastInput?, called_eq, Call.input, hx, accepted?_of_error hrefused,
    accepted?_of_ok hx]
  rfl

end Committed

/-! ### What a statement remembers -/

/-- Of all the inputs that a statement is given, it remembers exactly the one that it accepted
last. -/
structure Remembers [Backend] (values : γ → Option Bytes) (f : Committed γ) : Prop where
  /-- After any calls it is what that input alone would have left of it. -/
  state : ∀ calls : List Committed.Call, f.IsAfter (f.lastInput? calls) (f.after calls)
  /-- A call whose input is refused changes nothing. -/
  refused : ∀ (calls : List Committed.Call) (call : Committed.Call),
    (f.after calls).accepted? call = none → (f.after calls).called call = f.after calls
  /-- That input is the assigned one, and the commitments are those to it and to its output. -/
  commitments : ∀ (calls : List Committed.Call) (input : Bytes),
    f.lastInput? calls = some input →
      values (f.after calls).computation = some input ∧
      (f.after calls).inputHash = some (commitment input) ∧
      ∃ output, (f.after calls).output = .ok output ∧
        (f.after calls).outputHash = some (commitment output)
  /-- Proving an input gives what it would have given at first. -/
  proof : ∀ (calls : List Committed.Call) (b : Build) (input : Bytes),
    (b.proveInput (f.after calls) input).1 = (b.proveInput f input).1

/-- A statement of a forgetful computation remembers the input that it accepted last. -/
theorem Forgetful.remembers [Backend] {values : γ → Option Bytes} {f : Committed γ}
    (hf : Forgetful f.computation)
    (hv : ∀ {input : Bytes} {c : γ}, Computation.assign f.computation input = .ok c →
      values c = some input) : Remembers values f := by
  have hafter : ∀ calls : List Committed.Call, f.IsAfter (f.lastInput? calls) (f.after calls) := by
    intro calls
    have hstart : f.IsAfter none f := rfl
    have h := hstart.after hf calls
    rwa [Option.or_none] at h
  refine ⟨hafter, fun calls call hcall ↦ ?_, fun calls input hl ↦ ?_, fun calls b input ↦ ?_⟩
  · rw [Committed.called_eq]
    rcases (hafter calls).setInput_cases hf call.input with ⟨e, -, hg⟩ | ⟨g, -, hg⟩
    · rw [hg]
    · rw [Committed.accepted?_of_ok hg] at hcall
      contradiction
  · have h := hafter calls
    rw [hl] at h
    obtain ⟨c, output, hc, ho, hg⟩ := Committed.setInput_ok_iff.1 h
    obtain ⟨output', ho'⟩ := hf.output hc
    obtain rfl := Except.ok.inj ((ho' _ _).symm.trans ho)
    rw [hg]
    exact ⟨hv hc, rfl, output', ho' _ _, rfl⟩
  · rw [Build.proveInput, Build.proveInput]
    rcases (hafter calls).setInput_cases hf input with ⟨e, hf', hg⟩ | ⟨g, hf', hg⟩
    · rw [hf', hg]
    · rw [hf', hg]

namespace InclusionCircuit

variable {depth : Nat} {c c' : InclusionCircuit}

/-- An input replaces the values of the circuit and nothing else. -/
theorem eq_of_assign {input : Bytes} (h : c.assign input = .ok c') :
    c' = { c with input := { c.input with values := some input } } := by
  rw [assign] at h
  split at h
  · contradiction
  · obtain ⟨b, hb, h⟩ := Except.bind_eq_ok_iff.1 h
    obtain ⟨-, rfl⟩ := Buffer.assign_ok_iff.1 hb
    exact (Except.ok.inj h).symm

/-- An inclusion circuit of the right sizes is forgetful. -/
theorem Shaped.forgetful (h : Shaped depth c) : Forgetful c where
  again {x y c'} ha := by
    obtain rfl := eq_of_assign ha
    simp only [Computation.assign, InclusionCircuit.assign, Buffer.assign_again]
  output {x c'} ha := by
    obtain ⟨w, -, -, -, hc⟩ := h.computes ha
    exact ⟨_, hc.output_eq⟩

end InclusionCircuit

namespace ListRootCircuit

variable {leaves : Nat} {c c' : ListRootCircuit}

/-- An input replaces the values of the circuit and nothing else. -/
theorem eq_of_assign {input : Bytes} (h : c.assign input = .ok c') :
    c' = { c with input := { c.input with values := some input } } := by
  obtain ⟨b, hb, h⟩ := Except.bind_eq_ok_iff.1 h
  obtain ⟨-, rfl⟩ := Buffer.assign_ok_iff.1 hb
  exact (Except.ok.inj h).symm

/-- A list root circuit of the right sizes is forgetful. -/
theorem Shaped.forgetful (h : Shaped leaves c) : Forgetful c where
  again {x y c'} ha := by
    obtain rfl := eq_of_assign ha
    simp only [Computation.assign, ListRootCircuit.assign, Buffer.assign_again]
  output {x c'} ha := ⟨_, (h.computes ha).output_eq⟩

end ListRootCircuit

/-- Statements about the inclusion of a leaf and about the root of a list, in whatever state their
circuits are when they are made, remember exactly the input that they accepted last. -/
theorem circuits_remember_last_input [Backend] :
    (∀ (depth : Nat) (c : InclusionCircuit), InclusionCircuit.Reached depth c →
      Remembers (·.input.values) (Committed.ofComputation c)) ∧
    (∀ (leaves : Nat) (c : ListRootCircuit), ListRootCircuit.Reached leaves c →
      Remembers (·.input.values) (Committed.ofComputation c)) := by
  constructor
  · intro depth c hc
    exact Forgetful.remembers hc.shaped.forgetful fun ha ↦ (hc.shaped.assign ha).2.1
  · intro leaves c hc
    exact Forgetful.remembers hc.shaped.forgetful fun ha ↦ (hc.shaped.assign ha).2.1

/-- Both circuits still have the commitment to an input that they accepted after one of another size
has been refused. -/
theorem circuits_remember_last_input_pair :
    (∃ c, InclusionCircuit.Reached 1 c ∧ c.opening = some (Word.ofNat 1, [Word.ofNat 0]) ∧
      let f := Committed.ofComputation c
      let calls : List Committed.Call := [.setInput (List.replicate 40 1), .setInput []]
      f.lastInput? calls = some (List.replicate 40 1) ∧
        (f.after calls).inputHash = some (commitment (List.replicate 40 1))) ∧
    ∃ c, ListRootCircuit.Reached 2 c ∧
      let f := Committed.ofComputation c
      let calls : List Committed.Call := [.setInput (List.replicate 64 1), .setInput []]
      f.lastInput? calls = some (List.replicate 64 1) ∧
        (f.after calls).inputHash = some (commitment (List.replicate 64 1)) := by
  obtain ⟨hinclusion, hlist⟩ := circuits_remember_last_input
  constructor
  · let c : InclusionCircuit :=
      ⟨1, some (Word.ofNat 1, [Word.ofNat 0]), Buffer.empty Inclusion.inputSize⟩
    have hopened : InclusionCircuit.withOpening ⟨1, none, Buffer.empty Inclusion.inputSize⟩
        (Word.ofNat 1) [Word.ofNat 0] = .ok c := rfl
    have hr : InclusionCircuit.Reached 1 c := .withOpening (.new rfl) hopened
    have ha : c.assign (List.replicate 40 1)
        = .ok { c with input := ⟨Inclusion.inputSize, some (List.replicate 40 1), []⟩ } := by
      decide +kernel
    obtain ⟨w, -, -, -, hcomp⟩ := hr.shaped.computes ha
    have hlast := Committed.lastInput?_of_refused
      (hcomp.setInput_eq (f := Committed.ofComputation c) ha)
      (rfl : Computation.assign _ [] = .error (.invalidLength "byte wires" 40 0))
    have hcommitments := (hinclusion 1 c hr).commitments _ _ hlast
    exact ⟨c, hr, rfl, hlast, hcommitments.2.1⟩
  · let c : ListRootCircuit := ⟨2, Buffer.empty (2 * Word.size)⟩
    have hr : ListRootCircuit.Reached 2 c := .new rfl
    have ha : c.assign (List.replicate 64 1)
        = .ok { c with input := ⟨2 * Word.size, some (List.replicate 64 1), []⟩ } := by
      decide +kernel
    have hlast := Committed.lastInput?_of_refused
      ((hr.shaped.computes ha).setInput_eq (f := Committed.ofComputation c) ha)
      (rfl : Computation.assign _ [] = .error (.invalidLength "byte wires" 64 0))
    have hcommitments := (hlist 2 c hr).commitments _ _ hlast
    exact ⟨c, hr, hlast, hcommitments.2.1⟩

end TreeProver
