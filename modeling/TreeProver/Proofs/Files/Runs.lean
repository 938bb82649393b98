import TreeProver.Proofs.Files.Places

/-!
# Runs that fail and stop

Every file operation may fail for reasons of its own, a write that fails may leave a part of its
content behind, and a run may end after any operation. `FileTree.Responds` says what an operation
may answer and leave behind, and `Script.Runs` what a script goes through up to the point where it
ends. What the operations of a script may touch bounds what its runs change.
-/

namespace TreeProver

/-! ### What operations change -/

namespace FileTree

/-- The content of the file at a place. -/
def file? (t : FileTree) (place : Place) : Option Bytes :=
  match t.get? place with
  | some (.file content) => some content
  | _ => none

/-- There is the content of a file exactly where there is the file. -/
theorem file?_eq_some_iff {t : FileTree} {place : Place} {content : Bytes} :
    t.file? place = some content ↔ t.get? place = some (.file content) := by
  rw [file?]
  split
  · next h => simp [h]
  · next h =>
    refine ⟨fun hc ↦ by contradiction, fun he ↦ absurd he (h content)⟩

/-- Places with the same entry have the same file. -/
theorem file?_congr {t t' : FileTree} {place place' : Place}
    (h : t'.get? place' = t.get? place) : t'.file? place' = t.file? place := by
  rw [file?, file?, h]

/-- Looking up a key finds nothing of the other keys. -/
theorem lookup_filter_ne (entries : List (Place × Entry)) (place q : Place) :
    (entries.filter fun x ↦ x.1 ≠ place).lookup q
      = if q = place then none else entries.lookup q := by
  induction entries with
  | nil => simp
  | cons x rest ih =>
    obtain ⟨y, e⟩ := x
    by_cases hy : y = place
    · subst hy
      rw [List.filter_cons_of_neg (by simp), ih]
      split
      · rfl
      · next hq => rw [List.lookup_cons, beq_false_of_ne hq]
    · rw [List.filter_cons_of_pos (by simp [hy]), List.lookup_cons, List.lookup_cons, ih]
      by_cases hq : q = y
      · subst hq
        simp [hy]
      · rw [beq_false_of_ne hq]

/-- There are directories on the way to the current one. -/
theorem get?_of_above_current {t : FileTree} {place : Place} (h : place <+: t.current) :
    t.get? place = some .directory := if_pos (List.isPrefixOf_iff_prefix.2 h)

/-- The current directory is one. -/
theorem get?_current (t : FileTree) : t.get? t.current = some .directory :=
  get?_of_above_current (List.prefix_refl _)

/-- A place without a directory is not on the way to the current one. -/
theorem not_above_current {t : FileTree} {place : Place} (h : t.get? place ≠ some .directory) :
    ¬ place <+: t.current := fun hp ↦ h (get?_of_above_current hp)

/-- Away from the current directory the entries say what there is. -/
theorem get?_of_not_above_current {t : FileTree} {place : Place} (h : ¬ place <+: t.current) :
    t.get? place = t.entries.lookup place :=
  if_neg fun hp ↦ h (List.isPrefixOf_iff_prefix.1 hp)

/-- Setting an entry changes nothing elsewhere. -/
theorem get?_set_of_ne (t : FileTree) {place q : Place} (e : Entry) (h : q ≠ place) :
    FileTree.get? (t.set place e) q = t.get? q := by
  rw [get?, get?, set, List.lookup_cons, lookup_filter_ne, beq_false_of_ne h, if_neg h]

/-- An entry is where it is set, away from the current directory. -/
theorem get?_set_self (t : FileTree) {place : Place} (e : Entry) (h : ¬ place <+: t.current) :
    FileTree.get? (t.set place e) place = some e := by
  have hset : (t.set place e).current = t.current := rfl
  rw [get?_of_not_above_current (hset ▸ h), set, List.lookup_cons, beq_self_eq_true]

/-- Erasing an entry changes nothing elsewhere. -/
theorem get?_erase_of_ne (t : FileTree) {place q : Place} (h : q ≠ place) :
    FileTree.get? (t.erase place) q = t.get? q := by
  rw [get?, get?, erase, lookup_filter_ne, if_neg h]

/-- There is nothing where an entry is erased, away from the current directory. -/
theorem get?_erase_self (t : FileTree) {place : Place} (h : ¬ place <+: t.current) :
    FileTree.get? (t.erase place) place = none := by
  have herase : (t.erase place).current = t.current := rfl
  rw [get?_of_not_above_current (herase ▸ h), erase, lookup_filter_ne, if_pos rfl]

/-- A tree keeps its directories; of its files only those at places that are touched may change, and
there may be more directories at places where they are made. -/
structure Keeps (t t' : FileTree) (touched made : Place → Prop) : Prop where
  current : t'.current = t.current
  directories : ∀ q, t.get? q = some .directory → t'.get? q = some .directory
  files : ∀ q, ¬ touched q → t'.file? q = t.file? q
  entries : ∀ q, ¬ touched q → ¬ made q → t'.get? q = t.get? q

namespace Keeps

variable {t t' t'' : FileTree} {touched made touched' made' : Place → Prop}

theorem refl (t : FileTree) (touched made : Place → Prop) : t.Keeps t touched made :=
  ⟨rfl, fun _ ↦ id, fun _ _ ↦ rfl, fun _ _ _ ↦ rfl⟩

theorem trans (h : t.Keeps t' touched made) (h' : t'.Keeps t'' touched made) :
    t.Keeps t'' touched made where
  current := h'.current.trans h.current
  directories q hq := h'.directories q (h.directories q hq)
  files q hq := (h'.files q hq).trans (h.files q hq)
  entries q hq hm := (h'.entries q hq hm).trans (h.entries q hq hm)

theorem mono (h : t.Keeps t' touched made) (ht : ∀ q, touched q → touched' q)
    (hm : ∀ q, made q → made' q) : t.Keeps t' touched' made' where
  current := h.current
  directories := h.directories
  files q hq := h.files q fun hc ↦ hq (ht q hc)
  entries q hq hn := h.entries q (fun hc ↦ hq (ht q hc)) fun hc ↦ hn (hm q hc)

/-- A path leads where it led before. -/
theorem locate (h : t.Keeps t' touched made) {p : Path} {place : Place}
    (hp : t.locate p = .ok place) : t'.locate p = .ok place :=
  locate_of_directories h.current h.directories hp

end Keeps

/-- A file is put where there is no directory. -/
theorem keeps_set_file {t : FileTree} {place : Place} (content : Bytes)
    (h : t.get? place ≠ some .directory) :
    t.Keeps (t.set place (.file content)) (· = place) fun _ ↦ False where
  current := rfl
  directories q hq := by
    have hne : q ≠ place := fun he ↦ h (he ▸ hq)
    rw [get?_set_of_ne t _ hne, hq]
  files q hq := file?_congr (get?_set_of_ne t _ hq)
  entries q hq _ := get?_set_of_ne t _ hq

/-- A directory is made where there is nothing. -/
theorem keeps_set_directory {t : FileTree} {place : Place} (h : t.get? place = none) :
    t.Keeps (t.set place .directory) (fun _ ↦ False) (· = place) where
  current := rfl
  directories q hq := by
    have hne : q ≠ place := by
      rintro rfl
      rw [h] at hq
      cases hq
    rw [get?_set_of_ne t _ hne, hq]
  files q _ := by
    by_cases he : q = place
    · subst he
      have hplace : ¬ q <+: t.current := not_above_current (by rw [h]; exact nofun)
      rw [file?, file?, h, get?_set_self t _ hplace]
    · exact file?_congr (get?_set_of_ne t _ he)
  entries q _ hq := get?_set_of_ne t _ hq

/-- A file is taken away. -/
theorem keeps_erase {t : FileTree} {place : Place} {content : Bytes}
    (h : t.get? place = some (.file content)) :
    t.Keeps (t.erase place) (· = place) fun _ ↦ False where
  current := rfl
  directories q hq := by
    have hne : q ≠ place := by
      rintro rfl
      rw [h] at hq
      cases hq
    rw [get?_erase_of_ne t hne, hq]
  files q hq := file?_congr (get?_erase_of_ne t hq)
  entries q hq _ := get?_erase_of_ne t hq

/-! ### What operations do when they take effect -/

variable {t t' : FileTree}

/-- A directory is made at the place of its path, where there was nothing. -/
theorem makeDirectory_ok {p : Path} (h : t.makeDirectory p = .ok t') :
    t.get? (p.place t.current) = none ∧ t' = t.set (p.place t.current) .directory := by
  obtain ⟨place, hp, h⟩ := Except.bind_eq_ok_iff.1 h
  rw [← locate_ok hp]
  split at h
  · contradiction
  · next he => exact ⟨he, (Except.ok.inj h).symm⟩

/-- A file is written at the place of its path, where there was no directory. -/
theorem write_ok {p : Path} {content : Bytes} (h : t.write p content = .ok t') :
    t.locate p = .ok (p.place t.current) ∧ t.get? (p.place t.current) ≠ some .directory ∧
      t' = t.set (p.place t.current) (.file content) := by
  obtain ⟨place, hp, h⟩ := Except.bind_eq_ok_iff.1 h
  rw [← locate_ok hp]
  split at h
  · contradiction
  · next he => exact ⟨hp, he, (Except.ok.inj h).symm⟩

/-- A file is moved from the place of one path to that of another, where there was no directory. -/
theorem rename_ok {source target : Path} (h : t.rename source target = .ok t') :
    t.locate target = .ok (target.place t.current) ∧
      ∃ content, t.get? (source.place t.current) = some (.file content) ∧
      t.get? (target.place t.current) ≠ some .directory ∧
      t' = (t.erase (source.place t.current)).set (target.place t.current) (.file content) := by
  obtain ⟨old, ho, h⟩ := Except.bind_eq_ok_iff.1 h
  rw [← locate_ok ho]
  split at h
  · contradiction
  · contradiction
  · next content hc =>
    split at h
    · contradiction
    · obtain ⟨new, hn, h⟩ := Except.bind_eq_ok_iff.1 h
      rw [← locate_ok hn]
      split at h
      · contradiction
      · split at h
        · contradiction
        · next hd => exact ⟨hn, content, hc, hd, (Except.ok.inj h).symm⟩

/-- A file is removed from the place of its path. -/
theorem remove_ok {p : Path} (h : t.remove p = .ok t') :
    ∃ content, t.get? (p.place t.current) = some (.file content) ∧
      t' = t.erase (p.place t.current) := by
  obtain ⟨place, hp, h⟩ := Except.bind_eq_ok_iff.1 h
  rw [← locate_ok hp]
  split at h
  · next content hc => exact ⟨content, hc, (Except.ok.inj h).symm⟩
  · contradiction
  · contradiction

end FileTree

/-! ### Files that can be read -/

namespace FileTree

variable {t t' : FileTree} {touched made : Place → Prop}

/-- A file is read when its path leads to its place and its content is there. -/
theorem read_ok_iff {p : Path} {content : Bytes} :
    t.read p = .ok content ↔
      t.locate p = .ok (p.place t.current) ∧ t.file? (p.place t.current) = some content := by
  constructor
  · intro h
    obtain ⟨place, hp, h⟩ := Except.bind_eq_ok_iff.1 h
    obtain rfl := locate_ok hp
    refine ⟨hp, ?_⟩
    rw [file?_eq_some_iff]
    split at h
    · next he => rw [he, Except.ok.inj h]
    · contradiction
    · contradiction
  · rintro ⟨hp, hc⟩
    rw [read, hp]
    simp only [bind, Except.bind, file?_eq_some_iff.1 hc]

/-- What is read of the file at the place that a path leads to. -/
theorem read_of_locate {path : Path} {p : Place} {content : Bytes} (hplace : t.locate path = .ok p)
    (hfile : t.get? p = some (.file content)) : t.read path = .ok content := by
  obtain rfl := locate_ok hplace
  exact read_ok_iff.2 ⟨hplace, file?_eq_some_iff.2 hfile⟩

/-- A file that can be read is still read where nothing is touched. -/
theorem Keeps.read (h : t.Keeps t' touched made) {p : Path} {content : Bytes}
    (hp : ¬ touched (p.place t.current)) (hr : t.read p = .ok content) :
    t'.read p = .ok content := by
  rw [read_ok_iff] at hr ⊢
  rw [h.current, h.files _ hp]
  exact ⟨h.locate hr.1, hr.2⟩

/-- What is at a place that is not touched is as it was, unless a directory has come into being. -/
theorem Keeps.get?_eq (h : t.Keeps t' touched made) {q : Place} (hq : ¬ touched q)
    (hnew : ¬ (t.get? q = none ∧ t'.get? q = some .directory)) : t'.get? q = t.get? q := by
  have hfile := h.files q hq
  cases he : t.get? q with
  | none =>
    rw [file?, file?, he] at hfile
    cases he' : t'.get? q with
    | none => rfl
    | some entry =>
      cases entry with
      | directory => exact absurd ⟨he, he'⟩ hnew
      | file content =>
        rw [he'] at hfile
        cases hfile
  | some entry =>
    cases entry with
    | directory => exact h.directories q he
    | file content => exact file?_eq_some_iff.1 (hfile.trans (file?_eq_some_iff.2 he))

end FileTree

/-! ### Operations that may fail -/

/-- An answer by which an operation fails. -/
def Operation.Fails : (op : Operation) → op.Answer → Prop
  | .read _, answer => ∃ e, answer = .error e
  | .isPresent _, answer | .isDirectory _, answer => answer = false
  | .makeDirectory _, answer | .write .., answer | .rename .., answer | .remove _, answer =>
    ∃ e, answer = .error e

/-- What an operation may answer on a tree, and the tree that it may leave behind. -/
abbrev Behaviour := (t : FileTree) → (op : Operation) → op.Answer → FileTree → Prop

/-- An operation takes effect or fails with whatever reason; a write that fails may leave a file
with a part of its content behind. -/
inductive FileTree.Responds (t : FileTree) : (op : Operation) → op.Answer → FileTree → Prop
  | performed (op : Operation) : t.Responds op (t.perform op).1 (t.perform op).2
  | failed (op : Operation) (answer : op.Answer) (h : op.Fails answer) : t.Responds op answer t
  | cut (p : Path) (content : Bytes) (e : IoError) (n : Nat) {place : Place}
      (hp : t.locate p = .ok place) (hd : t.get? place ≠ some .directory) :
      t.Responds (.write p content) (.error e) (t.set place (.file (content.take n)))

namespace Operation

/-- The places at which an operation may put or take a file. -/
def Touches (current : Place) : Operation → Place → Prop
  | .write p _, q | .remove p, q => q = p.place current
  | .rename source target, q => q = source.place current ∨ q = target.place current
  | .read _, _ | .isPresent _, _ | .isDirectory _, _ | .makeDirectory _, _ => False

/-- The places at which an operation may make a directory. -/
def Makes (current : Place) : Operation → Place → Prop
  | .makeDirectory p, q => q = p.place current
  | _, _ => False

end Operation

namespace FileTree

variable {t t' : FileTree}

/-- An operation that takes effect changes the tree only where it may. -/
theorem keeps_perform (t : FileTree) (op : Operation) :
    t.Keeps (t.perform op).2 (op.Touches t.current) (op.Makes t.current) := by
  -- A change that fails changes nothing.
  have hchanged : ∀ (r : Except IoError FileTree) (touched made : Place → Prop),
      (∀ t', r = .ok t' → t.Keeps t' touched made) → t.Keeps (t.changed r).2 touched made := by
    intro r touched made h
    cases r with
    | error e => exact Keeps.refl t touched made
    | ok t' => exact h t' rfl
  cases op with
  | read p => exact Keeps.refl ..
  | isPresent p => exact Keeps.refl ..
  | isDirectory p => exact Keeps.refl ..
  | makeDirectory p =>
    refine hchanged _ _ _ fun t' h ↦ ?_
    obtain ⟨he, rfl⟩ := makeDirectory_ok h
    exact keeps_set_directory he
  | write p content =>
    refine hchanged _ _ _ fun t' h ↦ ?_
    obtain ⟨-, he, rfl⟩ := write_ok h
    exact keeps_set_file content he
  | rename source target =>
    refine hchanged _ _ _ fun t' h ↦ ?_
    obtain ⟨-, content, hc, hd, rfl⟩ := rename_ok h
    have herase := keeps_erase hc
    have hd' : FileTree.get? (t.erase (source.place t.current)) (target.place t.current)
        ≠ some .directory := by
      by_cases he : target.place t.current = source.place t.current
      · have hplace : ¬ source.place t.current <+: t.current :=
          not_above_current (by rw [hc]; exact nofun)
        rw [he, get?_erase_self t hplace]
        exact nofun
      · rw [get?_erase_of_ne t he]
        exact hd
    exact (herase.mono (fun q hq ↦ .inl hq) fun _ ↦ id).trans
      ((keeps_set_file content hd').mono (fun q hq ↦ .inr hq) fun _ ↦ id)
  | remove p =>
    refine hchanged _ _ _ fun t' h ↦ ?_
    obtain ⟨content, hc, rfl⟩ := remove_ok h
    exact keeps_erase hc

/-- An operation changes the tree only where it may, whether it takes effect or fails. -/
theorem Responds.keeps {op : Operation} {answer : op.Answer} (h : t.Responds op answer t') :
    t.Keeps t' (op.Touches t.current) (op.Makes t.current) := by
  cases h with
  | performed => exact keeps_perform t op
  | failed _ h => exact Keeps.refl ..
  | cut p content e n hp hd =>
    obtain rfl := locate_ok hp
    exact keeps_set_file _ hd

end FileTree

/-! ### What single operations answer -/

namespace FileTree

variable {t t' : FileTree}

/-- After a write the file has its content, or the write has failed and nothing has changed or a
part of the content is there. -/
theorem Responds.write {p : Path} {content : Bytes} {answer : Except IoError Unit}
    (h : t.Responds (.write p content) answer t') :
    (answer = .ok () ∧ t'.read p = .ok content) ∨
    (∃ e, answer = .error e) ∧ (t' = t ∨ ∃ n, t'.file? (p.place t.current)
      = some (content.take n)) := by
  cases h with
  | performed =>
    cases hw : t.write p content with
    | error e =>
      simp only [perform, hw, changed]
      exact .inr ⟨⟨e, rfl⟩, .inl trivial⟩
    | ok t'' =>
      simp only [perform, hw, changed]
      obtain ⟨hp, hd, rfl⟩ := write_ok hw
      refine .inl ⟨trivial, read_ok_iff.2 ⟨(keeps_set_file content hd).locate hp, ?_⟩⟩
      exact file?_eq_some_iff.2 (get?_set_self t _ (not_above_current hd))
  | failed _ _ h => exact .inr ⟨h, .inl rfl⟩
  | cut _ _ e n hp hd =>
    obtain rfl := locate_ok hp
    exact .inr ⟨⟨e, rfl⟩, .inr ⟨n, file?_eq_some_iff.2 (get?_set_self t _ (not_above_current hd))⟩⟩

/-- After a move to another place the file that could be read under the old path can be read under
the new path alone, or the move has failed and nothing has changed. -/
theorem Responds.rename {source target : Path} {content : Bytes} {answer : Except IoError Unit}
    (h : t.Responds (.rename source target) answer t')
    (hne : source.place t.current ≠ target.place t.current) (hr : t.read source = .ok content) :
    (answer = .ok () ∧ t'.read target = .ok content ∧ t'.file? (source.place t.current) = none) ∨
    (∃ e, answer = .error e) ∧ t' = t := by
  have hkeep := h.keeps
  cases h with
  | performed =>
    cases hw : t.rename source target with
    | error e =>
      simp only [perform, hw, changed]
      exact .inr ⟨⟨e, rfl⟩, trivial⟩
    | ok t'' =>
      simp only [perform, hw, changed] at hkeep ⊢
      obtain ⟨hp, content', hc, hd, rfl⟩ := rename_ok hw
      obtain rfl : content' = content := by
        have hr := file?_eq_some_iff.1 (read_ok_iff.1 hr).2
        rw [hc] at hr
        exact Entry.file.inj (Option.some.inj hr)
      have hplace : ¬ source.place t.current <+: t.current :=
        not_above_current (by rw [hc]; exact nofun)
      refine .inl ⟨trivial, read_ok_iff.2 ⟨hkeep.locate hp, ?_⟩, ?_⟩
      · exact file?_eq_some_iff.2 (get?_set_self _ _ (not_above_current (t := t) hd))
      · rw [file?, get?_set_of_ne _ _ hne, get?_erase_self t hplace]
  | failed _ _ h => exact .inr ⟨h, rfl⟩

/-- After a file that can be read is removed, there is no file. -/
theorem file?_perform_remove {p : Path} {content : Bytes} (h : t.read p = .ok content) :
    (t.perform (.remove p)).2.file? (p.place t.current) = none := by
  obtain ⟨hp, hc⟩ := read_ok_iff.1 h
  have hentry := file?_eq_some_iff.1 hc
  have hremove : t.remove p = .ok (t.erase (p.place t.current)) := by
    simp only [remove, hp, bind, Except.bind, hentry]
  have hplace : ¬ p.place t.current <+: t.current := not_above_current (by rw [hentry]; exact nofun)
  simp only [perform, hremove, changed, file?, get?_erase_self t hplace]

end FileTree

/-! ### Runs -/

namespace Script

variable {α β : Type} {R : Behaviour} {t t' : FileTree} {trail : List FileTree}

/-- A run of a script from a tree: the trees that it goes through, the script that is left where it
ends, and the tree there. -/
inductive Runs (R : Behaviour) :
    Script α → FileTree → List FileTree → Script α → FileTree → Prop
  | stop (s : Script α) (t : FileTree) : Runs R s t [] s t
  | step {op : Operation} {next : op.Answer → Script α} {answer : op.Answer} {t t' t'' : FileTree}
      {trail : List FileTree} {s : Script α} (h : R t op answer t')
      (rest : Runs R (next answer) t' trail s t'') :
      Runs R (.step op next) t (t' :: trail) s t''

/-- A run ends at one of the trees that it goes through, or where it starts. -/
theorem Runs.end_mem {s s' : Script α} (h : s.Runs R t trail s' t') : t' ∈ t :: trail := by
  induction h with
  | stop => exact List.mem_cons_self
  | step _ _ ih => exact List.mem_cons_of_mem _ ih

/-- A run is one of every behaviour that allows the same answers. -/
theorem Runs.mono {R' : Behaviour} {s s' : Script α}
    (hR : ∀ t op answer t', R t op answer t' → R' t op answer t') (h : s.Runs R t trail s' t') :
    s.Runs R' t trail s' t' := by
  induction h with
  | stop => exact .stop _ _
  | step hop _ ih => exact .step (hR _ _ _ _ hop) ih

/-- A script that is done goes nowhere. -/
theorem Runs.done_eq {a : α} {s' : Script α} (h : (done a).Runs R t trail s' t') :
    s' = done a ∧ t' = t ∧ trail = [] := by
  cases h
  exact ⟨rfl, rfl, rfl⟩

/-- A run of one operation that is not over has not begun. -/
theorem Runs.perform_step {op op' : Operation} {next : op'.Answer → Script op.Answer}
    (h : (perform op).Runs R t trail (.step op' next) t') : t' = t := by
  cases h with
  | stop => rfl
  | step _ rest => exact absurd rest.done_eq.1 nofun

/-- A run of one operation that is over has an answer to it. -/
theorem Runs.perform_done {op : Operation} {answer : op.Answer}
    (h : (perform op).Runs R t trail (done answer) t') : R t op answer t' := by
  cases h with
  | step hop rest =>
    obtain ⟨ha, rfl, -⟩ := rest.done_eq
    rwa [done.inj ha]

/-- Running a script as a whole is a run of it. -/
theorem runs_run (hR : ∀ t op, R t op (t.perform op).1 (t.perform op).2) (s : Script α)
    (t : FileTree) : ∃ trail, s.Runs R t trail (done (s.run t).1) (s.run t).2 := by
  induction s generalizing t with
  | done a => exact ⟨[], .stop _ _⟩
  | step op next ih =>
    obtain ⟨trail, h⟩ := ih (t.perform op).1 (t.perform op).2
    exact ⟨_, .step (hR t op) h⟩

/-- All operations answer in a certain way when a script is run as a whole. -/
def AllAnswer (P : (op : Operation) → op.Answer → Prop) : Script α → FileTree → Prop
  | done _, _ => True
  | step op next, t =>
    P op (t.perform op).1 ∧ (next (t.perform op).1).AllAnswer P (t.perform op).2

instance AllAnswer.decidable {P : (op : Operation) → op.Answer → Prop}
    [∀ op answer, Decidable (P op answer)] :
    (s : Script α) → (t : FileTree) → Decidable (s.AllAnswer P t)
  | done _, _ => inferInstanceAs (Decidable True)
  | step op next, t =>
    have := decidable (P := P) (next (t.perform op).1) (t.perform op).2
    inferInstanceAs (Decidable (_ ∧ AllAnswer P _ _))

/-- Running a script as a whole is a run of it in which the operations answer as they do. -/
theorem runs_run_of_allAnswer {P : (op : Operation) → op.Answer → Prop} {s : Script α}
    {t : FileTree} (h : s.AllAnswer P t) :
    ∃ trail, s.Runs (fun t op answer t' ↦ t.Responds op answer t' ∧ P op answer) t trail
      (done (s.run t).1) (s.run t).2 := by
  induction s generalizing t with
  | done a => exact ⟨[], .stop _ _⟩
  | step op next ih =>
    obtain ⟨trail, hrest⟩ := ih _ h.2
    exact ⟨_, .step ⟨.performed op, h.1⟩ hrest⟩

/-- A run of a script that goes on with another one ends within the first, or after it is done. -/
theorem Runs.bind {s : Script α} {k : α → Script β} {s' : Script β}
    (h : (s >>= k).Runs R t trail s' t') :
    (∃ op next, s.Runs R t trail (.step op next) t' ∧ s' = Script.step op next >>= k) ∨
    ∃ a m before after, trail = before ++ after ∧ s.Runs R t before (done a) m ∧
      (k a).Runs R m after s' t' := by
  induction s generalizing t trail with
  | done a => exact .inr ⟨a, t, [], trail, rfl, .stop _ _, h⟩
  | step op next ih =>
    cases h with
    | stop => exact .inl ⟨op, next, .stop _ _, rfl⟩
    | step hop rest =>
      rcases ih _ rest with ⟨op', next', hs, rfl⟩ | ⟨a, m, before, after, rfl, hs, hk⟩
      · exact .inl ⟨op', next', .step hop hs, rfl⟩
      · exact .inr ⟨a, m, _ :: before, after, rfl, .step hop hs, hk⟩

/-! ### Scripts of certain operations -/

/-- All operations of a script are of a certain kind. -/
def Only (P : Operation → Prop) : Script α → Prop
  | done _ => True
  | step op next => P op ∧ ∀ answer, (next answer).Only P

/-- What goes on with scripts of certain operations is a script of these. -/
theorem Only.bind {P : Operation → Prop} {s : Script α} {k : α → Script β} (hs : s.Only P)
    (hk : ∀ a, (k a).Only P) : (s >>= k).Only P := by
  induction s with
  | done a => exact hk a
  | step op next ih => exact ⟨hs.1, fun answer ↦ ih answer (hs.2 answer)⟩

/-- The operations of a script only touch certain places and make directories only at certain
places, seen from a current directory. -/
def Within (current : Place) (touched made : Place → Prop) : Script α → Prop :=
  Only fun op ↦ (∀ q, op.Touches current q → touched q) ∧ ∀ q, op.Makes current q → made q

/-- The operations of a script may touch more places than they do. -/
theorem Within.mono {current : Place} {touched made touched' made' : Place → Prop} {s : Script α}
    (h : s.Within current touched made) (ht : ∀ q, touched q → touched' q)
    (hm : ∀ q, made q → made' q) : s.Within current touched' made' := by
  induction s with
  | done a => trivial
  | step op next ih =>
    refine ⟨⟨fun q hq ↦ ht q (h.1.1 q hq), fun q hq ↦ hm q (h.1.2 q hq)⟩, fun answer ↦ ?_⟩
    exact ih answer (h.2 answer)

/-- A run changes the tree only where the operations of its script may. -/
theorem Runs.keeps (hR : ∀ t op answer t', R t op answer t' → t.Responds op answer t')
    {touched made : Place → Prop} {s s' : Script α} (h : s.Runs R t trail s' t')
    (hs : s.Within t.current touched made) : t.Keeps t' touched made := by
  induction h with
  | stop s t => exact .refl ..
  | step hop _ ih =>
    have hop := (hR _ _ _ _ hop).keeps
    have hkeep := hop.mono hs.1.1 hs.1.2
    refine hkeep.trans (ih ?_)
    rw [hkeep.current]
    exact hs.2 _

end Script

end TreeProver
