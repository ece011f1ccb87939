import Tombstash.Base.Bytes

set_option autoImplicit false

namespace Tombstash

-- A file: its bytes and how many of them an fsync has made durable.
structure File where
  data : Bytes
  synced : Nat
deriving DecidableEq, Repr

abbrev Disk (N : Type) := N → Option File

-- The system calls of a store, each one file-system step. A file is written
-- either at its end or, by pwrite, at an offset.
inductive FsOp (N : Type) where
  | create (name : N)
  | truncate (name : N)
  | append (name : N) (bytes : Bytes)
  | pwrite (name : N) (offset : Nat) (bytes : Bytes)
  | fsync (name : N)
  | rename (source target : N)
  | unlink (name : N)
  | fsyncDir
deriving DecidableEq, Repr

def overwrite (data : Bytes) (offset : Nat) (bytes : Bytes) : Bytes :=
  data.take offset ++ List.replicate (offset - data.length) 0 ++ bytes ++ data.drop (offset + bytes.length)

variable {N : Type}

-- After a crash every file keeps its durable bytes and any part of the rest.
def CrashImage (disk image : Disk N) : Prop :=
  ∀ name, match disk name with
    | none => image name = none
    | some file => ∃ kept, file.synced ≤ kept ∧ kept ≤ file.data.length ∧ image name = some ⟨file.data.take kept, kept⟩

theorem crash_none (disk image : Disk N) (crash : CrashImage disk image) (name : N) (absent : disk name = none) :
    image name = none := by
  have here := crash name
  rw [absent] at here
  exact here

theorem crash_some (disk image : Disk N) (crash : CrashImage disk image) (name : N) (file : File)
    (present : disk name = some file) :
    ∃ kept, file.synced ≤ kept ∧ kept ≤ file.data.length ∧ image name = some ⟨file.data.take kept, kept⟩ := by
  have here := crash name
  rw [present] at here
  exact here

theorem crash_durable (disk image : Disk N) (crash : CrashImage disk image) (name : N) (data : Bytes)
    (durable : disk name = some ⟨data, data.length⟩) : image name = some ⟨data, data.length⟩ := by
  obtain ⟨kept, low, high, eq⟩ := crash_some disk image crash name _ durable
  have all : kept = data.length := Nat.le_antisymm high low
  rw [eq, all, List.take_length]

theorem crash_valid (disk image : Disk N) (crash : CrashImage disk image) :
    ∀ name file, image name = some file → file.synced = file.data.length := by
  intro name file present
  cases before : disk name with
  | none =>
      rw [crash_none disk image crash name before] at present
      cases present
  | some old =>
      obtain ⟨kept, _, high, eq⟩ := crash_some disk image crash name old before
      rw [eq] at present
      cases present
      rw [List.length_take, Nat.min_eq_left high]

section Ops

variable [DecidableEq N]

def Disk.set (disk : Disk N) (name : N) (file : Option File) :
    Disk N := fun other => if other = name then file else disk other

def FsOp.apply (disk : Disk N) : FsOp N → Disk N
  | .create name => disk.set name (some ((disk name).getD ⟨[], 0⟩))
  | .truncate name => disk.set name (some ⟨[], 0⟩)
  | .append name bytes => disk.set name ((disk name).map (fun file => ⟨file.data ++ bytes, file.synced⟩))
  | .pwrite name offset bytes =>
      disk.set name ((disk name).map (fun file => ⟨overwrite file.data offset bytes, min file.synced offset⟩))
  | .fsync name => disk.set name ((disk name).map (fun file => ⟨file.data, file.data.length⟩))
  | .rename source target => (disk.set target (disk source)).set source none
  | .unlink name => disk.set name none
  | .fsyncDir => disk

def FsOp.touches : FsOp N → List N
  | .create name | .truncate name | .append name _ | .pwrite name _ _ | .fsync name | .unlink name => [name]
  | .rename source target => [source, target]
  | .fsyncDir => []

def applyAll (disk : Disk N) (ops : List (FsOp N)) : Disk N := ops.foldl FsOp.apply disk

@[simp] theorem apply_all_nil (disk : Disk N) : applyAll disk [] = disk := rfl

@[simp] theorem apply_all_cons (disk : Disk N) (op : FsOp N) (rest : List (FsOp N)) :
    applyAll disk (op :: rest) = applyAll (op.apply disk) rest := rfl

theorem apply_all_append (disk : Disk N) (front back : List (FsOp N)) :
    applyAll disk (front ++ back) = applyAll (applyAll disk front) back := by
  simp [applyAll]

theorem set_same (disk : Disk N) (name : N) (file : Option File) : disk.set name file name = file := by
  simp [Disk.set]

theorem set_other (disk : Disk N) (name other : N) (file : Option File) (different : other ≠ name) :
    disk.set name file other = disk other := by
  simp [Disk.set, different]

theorem set_present (disk : Disk N) (name : N) (file : Option File) (present : disk name = file) :
    disk.set name file = disk := by
  funext other
  by_cases here : other = name
  · rw [here, set_same, present]
  · exact set_other disk name other file here

theorem apply_frame (disk : Disk N) (op : FsOp N) (name : N) (untouched : name ∉ op.touches) :
    op.apply disk name = disk name := by
  cases op with
  | rename source target =>
      simp only [FsOp.touches, List.mem_cons, List.not_mem_nil, or_false, not_or] at untouched
      rw [FsOp.apply, set_other _ _ _ _ untouched.1, set_other _ _ _ _ untouched.2]
  | fsyncDir => rfl
  | _ =>
      simp only [FsOp.touches, List.mem_singleton] at untouched
      exact set_other _ _ _ _ untouched

theorem apply_all_frame (disk : Disk N) (ops : List (FsOp N)) (name : N) (untouched : ∀ op ∈ ops, name ∉ op.touches) :
    applyAll disk ops name = disk name := by
  induction ops generalizing disk with
  | nil => rfl
  | cons op rest ih =>
      rw [apply_all_cons, ih (op.apply disk) (fun other member => untouched other (by simp [member])),
        apply_frame disk op name (untouched op (by simp))]

-- What one step does to the names it touches depends only on those names.
theorem apply_congr (left right : Disk N) (op : FsOp N) (name : N)
    (same : ∀ other ∈ name :: op.touches, left other = right other) : op.apply left name = op.apply right name := by
  by_cases touched : name ∈ op.touches
  · cases op with
    | rename source target =>
        have atSource := same source (by simp [FsOp.touches])
        have atName := same name (by simp)
        by_cases first : name = source
        · simp [FsOp.apply, Disk.set, first]
        · by_cases second : name = target
          · simp [FsOp.apply, Disk.set, atSource, second]
          · simp [FsOp.apply, Disk.set, atName, first, second]
    | fsyncDir => simp [FsOp.touches] at touched
    | _ =>
        have atName := same name (by simp)
        simp only [FsOp.touches, List.mem_singleton] at touched
        subst touched
        simp [FsOp.apply, Disk.set, atName]
  · rw [apply_frame _ _ _ touched, apply_frame _ _ _ touched]
    exact same name (by simp)

theorem apply_comm (disk : Disk N) (first second : FsOp N) (apart : ∀ name ∈ first.touches, name ∉ second.touches) :
    first.apply (second.apply disk) = second.apply (first.apply disk) := by
  funext name
  by_cases inFirst : name ∈ first.touches
  · rw [apply_frame _ second name (apart name inFirst)]
    apply apply_congr
    intro other member
    rcases List.mem_cons.mp member with same | touched
    · rw [same]
      exact apply_frame _ second name (apart name inFirst)
    · exact apply_frame _ second other (apart other touched)
  · rw [apply_frame _ first name inFirst]
    apply apply_congr
    intro other member
    rcases List.mem_cons.mp member with same | touched
    · rw [same]
      exact (apply_frame _ first name inFirst).symm
    · exact (apply_frame _ first other (fun both => apart other both touched)).symm

theorem apply_all_comm (disk : Disk N) (op : FsOp N) (ops : List (FsOp N))
    (apart : ∀ other ∈ ops, ∀ name ∈ op.touches, name ∉ other.touches) :
    applyAll (op.apply disk) ops = op.apply (applyAll disk ops) := by
  induction ops generalizing disk with
  | nil => rfl
  | cons other rest ih =>
      rw [apply_all_cons, apply_all_cons, ← apply_comm disk op other (apart other (by simp)),
        ih (other.apply disk) (fun later member => apart later (by simp [member]))]

theorem apply_all_swap (disk : Disk N) (front back : List (FsOp N))
    (apart : ∀ op ∈ front, ∀ other ∈ back, ∀ name ∈ op.touches, name ∉ other.touches) :
    applyAll (applyAll disk front) back = applyAll (applyAll disk back) front := by
  induction front generalizing disk with
  | nil => rfl
  | cons op rest ih =>
      rw [apply_all_cons, apply_all_cons, ih (op.apply disk) (fun other member => apart other (by simp [member])),
        apply_all_comm disk op back (apart op (by simp))]

-- No file has more durable bytes than bytes.
def Disk.Valid (disk : Disk N) : Prop := ∀ name file, disk name = some file → file.synced ≤ file.data.length

theorem valid_set (disk : Disk N) (name : N) (file : Option File) (valid : disk.Valid)
    (fits : ∀ f, file = some f → f.synced ≤ f.data.length) : (disk.set name file).Valid := by
  intro other f present
  by_cases same : other = name
  · rw [same, set_same] at present
    exact fits f present
  · rw [set_other _ _ _ _ same] at present
    exact valid other f present

theorem le_length_overwrite (data : Bytes) (offset : Nat) (bytes : Bytes) :
    offset ≤ (overwrite data offset bytes).length := by
  simp only [overwrite, List.length_append, List.length_take, List.length_replicate]
  omega

theorem apply_valid (disk : Disk N) (op : FsOp N) (valid : disk.Valid) : (op.apply disk).Valid := by
  -- Each step that keeps a file changes it by a function under which the bound is kept.
  have mapped : ∀ name (change : File → File),
    (∀ f, f.synced ≤ f.data.length → (change f).synced ≤ (change f).data.length) →
      (disk.set name ((disk name).map change)).Valid := by
    intro name change keeps
    refine valid_set disk name _ valid (fun f changed => ?_)
    obtain ⟨before, present, rfl⟩ := Option.map_eq_some_iff.mp changed
    exact keeps before (valid name before present)
  cases op with
  | create name =>
      refine valid_set disk name _ valid (fun f created => ?_)
      cases present : disk name with
      | none =>
          rw [present] at created
          cases created
          exact Nat.le_refl _
      | some file =>
          rw [present] at created
          cases created
          exact valid name file present
  | truncate name => exact valid_set disk name _ valid (fun f cut => by cases cut; exact Nat.le_refl _)
  | append name bytes =>
      exact mapped name _ (fun f inside => by rw [List.length_append]; exact Nat.le_trans inside (Nat.le_add_right _ _))
  | pwrite name offset bytes =>
      exact mapped name _ (fun f inside => Nat.le_trans (Nat.min_le_right _ _) (le_length_overwrite _ _ _))
  | fsync name => exact mapped name _ (fun f inside => Nat.le_refl _)
  | rename source target =>
      exact valid_set _ source none (valid_set disk target _ valid (fun f present => valid source f present))
        (fun f absent => by cases absent)
  | unlink name => exact valid_set disk name none valid (fun f absent => by cases absent)
  | fsyncDir => exact valid

theorem apply_all_valid (disk : Disk N) (ops : List (FsOp N)) (valid : disk.Valid) : (applyAll disk ops).Valid := by
  induction ops generalizing disk with
  | nil => exact valid
  | cons op rest ih => exact ih (op.apply disk) (apply_valid disk op valid)

-- A property of every state in the course of some steps, the first and the
-- last state included.
def Throughout (P : Disk N → Prop) (disk : Disk N) (ops : List (FsOp N)) : Prop :=
  ∀ done, done <+: ops → P (applyAll disk done)

theorem throughout_nil (P : Disk N → Prop) (disk : Disk N) (holds : P disk) : Throughout P disk [] := by
  intro done part
  rw [List.prefix_nil.mp part]
  exact holds

theorem throughout_cons (P : Disk N → Prop) (disk : Disk N) (op : FsOp N) (rest : List (FsOp N)) :
    Throughout P disk (op :: rest) ↔ P disk ∧ Throughout P (op.apply disk) rest := by
  constructor
  · intro all
    refine ⟨all [] List.nil_prefix, fun done part => ?_⟩
    exact all (op :: done) (List.cons_prefix_cons.mpr ⟨rfl, part⟩)
  · rintro ⟨now, later⟩ done part
    cases done with
    | nil => exact now
    | cons first done =>
        obtain ⟨same, inner⟩ := List.cons_prefix_cons.mp part
        subst same
        exact later done inner

theorem throughout_append (P : Disk N → Prop) (disk : Disk N) (front back : List (FsOp N)) :
    Throughout P disk (front ++ back) ↔ Throughout P disk front ∧ Throughout P (applyAll disk front) back := by
  induction front generalizing disk with
  | nil =>
      refine ⟨fun all => ⟨throughout_nil P disk (all [] List.nil_prefix), all⟩, fun both => both.2⟩
  | cons op rest ih => rw [List.cons_append, throughout_cons, throughout_cons, ih, and_assoc, apply_all_cons]

theorem throughout_last (P : Disk N → Prop) (disk : Disk N) (ops : List (FsOp N)) (all : Throughout P disk ops) :
    P (applyAll disk ops) :=
  all ops List.prefix_rfl

theorem throughout_imp (P Q : Disk N → Prop) (disk : Disk N) (ops : List (FsOp N)) (all : Throughout P disk ops)
    (weaker : ∀ d, P d → Q d) : Throughout Q disk ops :=
  fun done part => weaker _ (all done part)

-- What every single step keeps holds throughout.
theorem throughout_kept (P : Disk N → Prop) (disk : Disk N) (ops : List (FsOp N)) (holds : P disk)
    (kept : ∀ op ∈ ops, ∀ d, P d → P (op.apply d)) : Throughout P disk ops := by
  induction ops generalizing disk with
  | nil => exact throughout_nil P disk holds
  | cons op rest ih =>
      refine (throughout_cons P disk op rest).mpr ⟨holds, ?_⟩
      exact ih (op.apply disk) (kept op (by simp) disk holds) (fun other member => kept other (by simp [member]))

-- Names that steps leave to themselves depend on nothing else.
theorem apply_all_agree (S : N → Prop) (left right : Disk N) (ops : List (FsOp N))
    (closed : ∀ op ∈ ops, (∀ name ∈ op.touches, S name) ∨ ∀ name ∈ op.touches, ¬ S name)
    (same : ∀ name, S name → left name = right name) :
    ∀ name, S name → applyAll left ops name = applyAll right ops name := by
  induction ops generalizing left right with
  | nil => exact same
  | cons op rest ih =>
      refine ih (op.apply left) (op.apply right) (fun other member => closed other (by simp [member]))
        (fun name inside => ?_)
      rcases closed op (by simp) with within | outside
      · refine apply_congr left right op name (fun other member => ?_)
        rcases List.mem_cons.mp member with rfl | touched
        · exact same other inside
        · exact same other (within other touched)
      · rw [apply_frame left op name (fun touched => outside name touched inside),
          apply_frame right op name (fun touched => outside name touched inside)]
        exact same name inside

-- A sequence of unlinks removes what it names and nothing else.
theorem apply_all_unlinks (disk : Disk N) (ops : List (FsOp N)) (unlinks : ∀ op ∈ ops, ∃ name, op = .unlink name)
    (name : N) :
    applyAll disk ops name = if .unlink name ∈ ops then none else disk name := by
  induction ops generalizing disk with
  | nil => simp
  | cons op rest ih =>
      obtain ⟨gone, rfl⟩ := unlinks op (by simp)
      rw [apply_all_cons, ih _ (fun other member => unlinks other (by simp [member]))]
      by_cases later : .unlink name ∈ rest
      · simp [later]
      · by_cases same : name = gone
        · simp [same, FsOp.apply, set_same]
        · simp [later, same, FsOp.apply, set_other]

end Ops

-- Steps after which a file is gone, and which do nothing else to it.
def Gone (disk : Disk N) (ops : List (FsOp N)) (name : N) : Prop :=
  (disk name = none ∨ .unlink name ∈ ops) ∧ ∀ op ∈ ops, name ∈ op.touches → op = .unlink name

theorem gone_nil (disk : Disk N) (name : N) : Gone disk [] name ↔ disk name = none := by
  simp [Gone]

theorem gone_next [DecidableEq N] (disk : Disk N) (op : FsOp N) (rest : List (FsOp N)) (name : N)
    (gone : Gone disk (op :: rest) name) :
    Gone (op.apply disk) rest name := by
  refine ⟨?_, fun other member => gone.2 other (by simp [member])⟩
  by_cases touched : name ∈ op.touches
  · rw [gone.2 op (by simp) touched]
    exact .inl (set_same disk name none)
  · rw [apply_frame disk op name touched]
    refine gone.1.imp id (fun unlinked => ?_)
    rcases List.mem_cons.mp unlinked with rfl | later
    · exact absurd (by simp [FsOp.touches]) touched
    · exact later

theorem gone_applied [DecidableEq N] (disk : Disk N) (ops : List (FsOp N)) (name : N) (gone : Gone disk ops name) :
    applyAll disk ops name = none := by
  induction ops generalizing disk with
  | nil => exact (gone_nil disk name).mp gone
  | cons op rest ih => exact ih (op.apply disk) (gone_next disk op rest name gone)

theorem gone_append (disk : Disk N) (front back : List (FsOp N)) (name : N) (gone : Gone disk front name)
    (untouched : ∀ op ∈ back, name ∉ op.touches) : Gone disk (front ++ back) name := by
  refine ⟨gone.1.imp id (List.mem_append_left _), fun op member touched => ?_⟩
  rcases List.mem_append.mp member with early | late
  · exact gone.2 op early touched
  · exact absurd touched (untouched op late)

theorem gone_of_less (disk later : Disk N) (ops : List (FsOp N)) (name : N) (gone : Gone disk ops name)
    (less : disk name = none → later name = none) : Gone later ops name :=
  ⟨gone.1.imp less id, gone.2⟩

-- The file begins with some text.
def Begins (disk : Disk N) (name : N) (text : Bytes) : Prop := ∃ file, disk name = some file ∧ text <+: file.data

-- Steps that leave the first bytes of a file as they are.
def FsOp.Spares (name : N) (size : Nat) : FsOp N → Prop
  | .create _ | .append _ _ | .fsync _ | .fsyncDir => True
  | .pwrite other offset _ => other = name → size ≤ offset
  | .truncate other | .unlink other => other ≠ name
  | .rename source target => source ≠ name ∧ target ≠ name

theorem untouched_spares (op : FsOp N) (name : N) (size : Nat) (untouched : name ∉ op.touches) :
    op.Spares name size := by
  cases op <;> simp_all [FsOp.Spares, FsOp.touches, eq_comm]

theorem spares_less (op : FsOp N) (name : N) (size less : Nat) (le : less ≤ size) (spares : op.Spares name size) :
    op.Spares name less := by
  cases op with
  | pwrite other offset bytes => exact fun same => Nat.le_trans le (spares same)
  | _ => exact spares

theorem prefix_overwrite (text data : Bytes) (offset : Nat) (bytes : Bytes) (starts : text <+: data)
    (past : text.length ≤ offset) :
    text <+: overwrite data offset bytes := by
  obtain ⟨rest, rfl⟩ := starts
  rw [overwrite, List.append_assoc, List.append_assoc]
  refine List.prefix_append_of_prefix ?_
  rw [List.take_append, List.take_of_length_le past]
  exact List.prefix_append _ _

theorem spares_begins [DecidableEq N] (disk : Disk N) (op : FsOp N) (name : N) (text : Bytes)
    (spares : op.Spares name text.length) (begins : Begins disk name text) : Begins (op.apply disk) name text := by
  by_cases touched : name ∈ op.touches
  · obtain ⟨file, present, starts⟩ := begins
    cases op with
    | create other =>
        cases List.mem_singleton.mp touched
        exact ⟨file, by simp [FsOp.apply, set_same, present], starts⟩
    | append other bytes =>
        cases List.mem_singleton.mp touched
        exact ⟨⟨file.data ++ bytes, file.synced⟩, by simp [FsOp.apply, set_same, present],
          starts.trans (List.prefix_append _ _)⟩
    | pwrite other offset bytes =>
        cases List.mem_singleton.mp touched
        exact ⟨⟨overwrite file.data offset bytes, min file.synced offset⟩, by simp [FsOp.apply, set_same, present],
          prefix_overwrite text file.data offset bytes starts (spares rfl)⟩
    | fsync other =>
        cases List.mem_singleton.mp touched
        exact ⟨⟨file.data, file.data.length⟩, by simp [FsOp.apply, set_same, present], starts⟩
    | truncate other => exact absurd (List.mem_singleton.mp touched).symm spares
    | unlink other => exact absurd (List.mem_singleton.mp touched).symm spares
    | rename source target =>
        rcases List.mem_cons.mp touched with same | other
        · exact absurd same.symm spares.1
        · exact absurd (List.mem_singleton.mp other).symm spares.2
    | fsyncDir => cases touched
  · rw [Begins, apply_frame disk op name touched]
    exact begins

theorem spares_all_begins [DecidableEq N] (disk : Disk N) (ops : List (FsOp N)) (name : N) (text : Bytes)
    (spares : ∀ op ∈ ops, op.Spares name text.length) (begins : Begins disk name text) :
    Begins (applyAll disk ops) name text := by
  induction ops generalizing disk with
  | nil => exact begins
  | cons op rest ih =>
      obtain ⟨here, later⟩ := List.forall_mem_cons.mp spares
      exact ih (op.apply disk) later (spares_begins disk op name text here begins)

end Tombstash
