import Tombstash.Base.Disk

set_option autoImplicit false

namespace Tombstash

variable {N : Type}

-- A file whatever its names: its bytes, and those that were durable before a
-- truncation that no fsync has followed.
structure Node where
  file : File
  before : Option Bytes

-- A loss of power may undo such a truncation.
def Node.seen (node : Node) (lost : Bool) : File :=
  match node.before with
  | some old => if lost then ⟨old, old.length⟩ else node.file
  | none => node.file

def Node.write (change : File → File) (node : Node) : Node := { node with file := change node.file }

def Node.cut (node : Node) : Node := ⟨⟨[], 0⟩, some (node.before.getD (node.file.data.take node.file.synced))⟩

def Node.sync (node : Node) : Node := ⟨⟨node.file.data, node.file.data.length⟩, none⟩

theorem seen_live (node : Node) : node.seen false = node.file := by
  rw [Node.seen]
  split <;> rfl

theorem seen_whole (node : Node) (lost : Bool) (whole : node.before = none) : node.seen lost = node.file := by
  rw [Node.seen, whole]

-- A directory and its files. After a loss of power the directory is one of dirs:
-- each entry made, moved or removed since its last fsync may be so or not.
structure Volume (N : Type) where
  nodes : Nat → Node
  next : Nat
  live : N → Option Nat
  dirs : List (N → Option Nat)

def Volume.empty : Volume N := ⟨fun _ => ⟨⟨[], 0⟩, none⟩, 0, fun _ => none, [fun _ => none]⟩

def Volume.view (v : Volume N) (dir : N → Option Nat) (lost : Nat → Bool) : Disk N := fun name =>
  (dir name).map (fun i => (v.nodes i).seen (lost i))

-- What the process sees.
def Volume.disk (v : Volume N) : Disk N := v.view v.live (fun _ => false)

theorem disk_at (v : Volume N) (name : N) : v.disk name = (v.live name).map (fun i => (v.nodes i).file) := by
  simp only [Volume.disk, Volume.view, seen_live]

def Volume.relink (v : Volume N) (change : (N → Option Nat) → N → Option Nat) : Volume N :=
  { v with
    live := change v.live
    dirs := v.dirs ++ v.dirs.map change }

def Volume.edit (v : Volume N) (name : N) (change : Node → Node) : Volume N :=
  { v with nodes := fun i => if v.live name = some i then change (v.nodes i) else v.nodes i }

-- A volume that has come about step by step: no file has two names.
structure Volume.Proper (v : Volume N) : Prop where
  current : v.live ∈ v.dirs
  made : ∀ dir ∈ v.dirs, ∀ name i, dir name = some i → i < v.next
  single : ∀ name other i, v.live name = some i → v.live other = some i → name = other

theorem empty_proper : (Volume.empty : Volume N).Proper := by
  refine ⟨List.mem_singleton.mpr rfl, fun dir member name i there => ?_, fun name other i there => ?_⟩
  · rw [List.mem_singleton.mp member] at there
    cases there
  · cases there

section Proper

variable (v : Volume N) (proper : v.Proper)

include proper in
theorem live_made (name : N) (i : Nat) (there : v.live name = some i) : i < v.next :=
  proper.made v.live proper.current name i there

include proper in
theorem edit_proper (name : N) (change : Node → Node) : (v.edit name change).Proper :=
  ⟨proper.current, proper.made, proper.single⟩

include proper in
theorem relink_proper (change : (N → Option Nat) → N → Option Nat)
    (made : ∀ dir ∈ v.dirs, ∀ name i, change dir name = some i → i < v.next)
    (single : ∀ name other i, change v.live name = some i → change v.live other = some i → name = other) :
    (v.relink change).Proper := by
  refine ⟨List.mem_append_right _ (List.mem_map_of_mem proper.current), fun dir member name i there => ?_, single⟩
  rcases List.mem_append.mp member with old | new
  · exact proper.made dir old name i there
  · obtain ⟨earlier, inside, rfl⟩ := List.mem_map.mp new
    exact made earlier inside name i there

end Proper

-- The files that a step writes.
def FsOp.edits : FsOp N → List N
  | .create name | .truncate name | .append name _ | .pwrite name _ _ | .fsync name => [name]
  | _ => []

theorem edits_touched (op : FsOp N) (other : N) (edited : other ∈ op.edits) : other ∈ op.touches := by
  cases op <;> first | exact edited | cases edited

-- Writes to two files can be swapped.
theorem edit_edit (v : Volume N) (proper : v.Proper) (name other : N) (different : name ≠ other)
    (change first : Node → Node) :
    (v.edit name change).edit other first = (v.edit other first).edit name change := by
  have nodes : ((v.edit name change).edit other first).nodes = ((v.edit other first).edit name change).nodes := by
    funext i
    change (if v.live other = some i then first (if v.live name = some i then change (v.nodes i) else v.nodes i)
        else if v.live name = some i then change (v.nodes i) else v.nodes i) =
      if v.live name = some i then change (if v.live other = some i then first (v.nodes i) else v.nodes i)
        else if v.live other = some i then first (v.nodes i) else v.nodes i
    by_cases here : v.live name = some i
    · rw [if_pos here, if_pos here, if_neg (fun there => different (proper.single name other i here there)),
        if_neg (fun there =>
        different (proper.single name other i here there))]
    · rw [if_neg here, if_neg here]
  exact congrArg (fun nodes => { v with nodes := nodes }) nodes

theorem edit_relink (v : Volume N) (name : N) (change : Node → Node) (link : (N → Option Nat) → N → Option Nat)
    (same : link v.live name = v.live name) : (v.edit name change).relink link = (v.relink link).edit name change := by
  have nodes : ((v.edit name change).relink link).nodes = ((v.relink link).edit name change).nodes := by
    funext i
    change (if v.live name = some i then change (v.nodes i) else v.nodes i) =
      if link v.live name = some i then change (v.nodes i) else v.nodes i
    simp only [same]
  exact congrArg (fun nodes => { v.relink link with nodes := nodes }) nodes

section Ops

variable [DecidableEq N]

def bindName (dir : N → Option Nat) (name : N) (node : Option Nat) : N → Option Nat := fun other =>
  if other = name then node else dir other

theorem bind_same (dir : N → Option Nat) (name : N) (node : Option Nat) :
    bindName dir name node name = node := if_pos rfl

theorem bind_other (dir : N → Option Nat) (name other : N) (node : Option Nat) (different : other ≠ name) :
    bindName dir name node other = dir other := if_neg different

theorem bind_some (dir : N → Option Nat) (name other : N) (node : Option Nat) (i : Nat)
    (there : bindName dir name node other = some i) :
    other = name ∧ node = some i ∨ other ≠ name ∧ dir other = some i := by
  by_cases same : other = name
  · rw [same, bind_same] at there
    exact .inl ⟨same, there⟩
  · rw [bind_other dir name other node same] at there
    exact .inr ⟨same, there⟩

def Volume.make (v : Volume N) (name : N) : Volume N :=
  { v.relink (fun dir => bindName dir name (some v.next)) with
    nodes := fun i => if i = v.next then ⟨⟨[], 0⟩, none⟩ else v.nodes i
    next := v.next + 1 }

-- The steps of Disk on a volume.
def FsOp.run (v : Volume N) : FsOp N → Volume N
  | .create name => if (v.live name).isSome then v else v.make name
  | .truncate name => if (v.live name).isSome then v.edit name Node.cut else v.make name
  | .append name bytes => v.edit name (Node.write (fun file => ⟨file.data ++ bytes, file.synced⟩))
  | .pwrite name offset bytes =>
      v.edit name (Node.write (fun file => ⟨overwrite file.data offset bytes, min file.synced offset⟩))
  | .fsync name => v.edit name Node.sync
  | .rename source target => v.relink (fun dir => bindName (bindName dir target (v.live source)) source none)
  | .unlink name => v.relink (fun dir => bindName dir name none)
  | .fsyncDir => { v with dirs := [v.live] }

def runAll (v : Volume N) (ops : List (FsOp N)) : Volume N := ops.foldl FsOp.run v

@[simp] theorem run_all_nil (v : Volume N) : runAll v [] = v := rfl

@[simp] theorem run_all_cons (v : Volume N) (op : FsOp N) (rest : List (FsOp N)) :
    runAll v (op :: rest) = runAll (op.run v) rest := rfl

theorem run_all_append (v : Volume N) (front back : List (FsOp N)) :
    runAll v (front ++ back) = runAll (runAll v front) back := by
  simp [runAll]

section Steps

variable (v : Volume N) (proper : v.Proper)

include proper in
theorem make_proper (name : N) : (v.make name).Proper := by
  refine ⟨List.mem_append_right _ (List.mem_map_of_mem proper.current), fun dir member other i there => ?_,
    fun first second i one two => ?_⟩
  · rcases List.mem_append.mp member with old | new
    · exact Nat.lt_succ_of_lt (proper.made dir old other i there)
    · obtain ⟨earlier, inside, rfl⟩ := List.mem_map.mp new
      rcases bind_some _ _ _ _ i there with ⟨_, fresh⟩ | ⟨_, old⟩
      · cases fresh
        exact Nat.lt_succ_self _
      · exact Nat.lt_succ_of_lt (proper.made earlier inside other i old)
  · have older : ∀ other, v.live other ≠ some v.next := fun other there =>
      Nat.lt_irrefl _ (live_made v proper other _ there)
    rcases bind_some _ _ _ _ i one with ⟨left, fresh⟩ | ⟨_, left⟩ <;> rcases bind_some _ _ _ _ i two with
      ⟨right, freshToo⟩ | ⟨_, right⟩
    · rw [left, right]
    · exact absurd (right.trans fresh.symm) (older second)
    · exact absurd (left.trans freshToo.symm) (older first)
    · exact proper.single first second i left right

include proper in
theorem run_proper (op : FsOp N) : (op.run v).Proper := by
  cases op with
  | create name =>
      rw [FsOp.run]
      split
      · exact proper
      · exact make_proper v proper name
  | truncate name =>
      rw [FsOp.run]
      split
      · exact edit_proper v proper name _
      · exact make_proper v proper name
  | append name bytes => exact edit_proper v proper name _
  | pwrite name offset bytes => exact edit_proper v proper name _
  | fsync name => exact edit_proper v proper name _
  | rename source target =>
      rw [FsOp.run]
      refine relink_proper v proper _ (fun dir inside name i there => ?_) (fun first second i one two => ?_)
      · rcases bind_some _ _ _ _ i there with ⟨_, none⟩ | ⟨_, kept⟩
        · cases none
        · rcases bind_some _ _ _ _ i kept with ⟨_, moved⟩ | ⟨_, old⟩
          · exact live_made v proper source i moved
          · exact proper.made dir inside name i old
      · rcases bind_some _ _ _ _ i one with ⟨_, none⟩ | ⟨notFirst, keptFirst⟩
        · cases none
        rcases bind_some _ _ _ _ i two with ⟨_, none⟩ | ⟨notSecond, keptSecond⟩
        · cases none
        rcases bind_some _ _ _ _ i keptFirst with ⟨left, moved⟩ | ⟨_, old⟩ <;>
          rcases bind_some _ _ _ _ i keptSecond with ⟨right, movedToo⟩ | ⟨_, oldToo⟩
        · rw [left, right]
        · exact absurd (proper.single second source i oldToo moved) notSecond
        · exact absurd (proper.single first source i old movedToo) notFirst
        · exact proper.single first second i old oldToo
  | unlink name =>
      rw [FsOp.run]
      refine relink_proper v proper _ (fun dir inside other i there => ?_) (fun first second i one two => ?_)
      · rcases bind_some _ _ _ _ i there with ⟨_, none⟩ | ⟨_, old⟩
        · cases none
        · exact proper.made dir inside other i old
      · rcases bind_some _ _ _ _ i one with ⟨_, none⟩ | ⟨_, old⟩
        · cases none
        rcases bind_some _ _ _ _ i two with ⟨_, none⟩ | ⟨_, oldToo⟩
        · cases none
        exact proper.single first second i old oldToo
  | fsyncDir =>
      refine ⟨List.mem_singleton.mpr rfl, fun dir member name i there => ?_, proper.single⟩
      rw [List.mem_singleton.mp member] at there
      exact live_made v proper name i there

include proper in
theorem edit_disk (name : N) (change : Node → Node) (on : File → File)
    (same : ∀ node, (change node).file = on node.file) :
    (v.edit name change).disk = v.disk.set name ((v.disk name).map on) := by
  funext other
  rw [disk_at, disk_at, Disk.set, disk_at]
  change (v.live other).map (fun i => (if v.live name = some i then change (v.nodes i) else v.nodes i).file) = _
  cases there : v.live other with
  | none =>
      split
      · next equal => rw [← equal, there]; rfl
      · rfl
  | some i =>
      rw [Option.map_some]
      by_cases equal : other = name
      · rw [if_pos equal, ← equal, there, if_pos rfl, Option.map_some, Option.map_some, same]
      · rw [if_neg equal, if_neg (fun here => equal (proper.single other name i there here)), Option.map_some]

include proper in
theorem make_disk (name : N) : (v.make name).disk = v.disk.set name (some ⟨[], 0⟩) := by
  funext other
  rw [disk_at, Disk.set, disk_at]
  change (bindName v.live name (some v.next) other).map
    (fun i => (if i = v.next then (⟨⟨[], 0⟩, none⟩ : Node) else v.nodes i).file) = _
  by_cases equal : other = name
  · rw [equal, bind_same, if_pos rfl, Option.map_some, if_pos rfl]
  · rw [bind_other _ _ _ _ equal, if_neg equal]
    cases there : v.live other with
    | none => rfl
    | some i => rw [Option.map_some, Option.map_some, if_neg (Nat.ne_of_lt (live_made v proper other i there))]

include proper in
-- The process sees what it sees of a disk.
theorem run_disk (op : FsOp N) : (op.run v).disk = op.apply v.disk := by
  have present : ∀ name, (v.live name).isSome = (v.disk name).isSome := fun name => by rw [disk_at, Option.isSome_map]
  cases op with
  | create name =>
      rw [FsOp.run, FsOp.apply]
      split
      · next there =>
          rw [present] at there
          obtain ⟨file, here⟩ := Option.isSome_iff_exists.mp there
          funext other
          rw [Disk.set, here]
          split
          · next equal => rw [equal, here]; rfl
          · rfl
      · next absent =>
          rw [present, Bool.not_eq_true, Option.isSome_eq_false_iff, Option.isNone_iff_eq_none] at absent
          rw [make_disk v proper name, absent]
          rfl
  | truncate name =>
      rw [FsOp.run, FsOp.apply]
      split
      · next there =>
          rw [present] at there
          obtain ⟨file, here⟩ := Option.isSome_iff_exists.mp there
          rw [edit_disk v proper name Node.cut (fun _ => ⟨[], 0⟩) (fun _ => rfl), here]
          rfl
      · exact make_disk v proper name
  | append name bytes => exact edit_disk v proper name _ _ (fun _ => rfl)
  | pwrite name offset bytes => exact edit_disk v proper name _ _ (fun _ => rfl)
  | fsync name => exact edit_disk v proper name _ _ (fun _ => rfl)
  | rename source target =>
      funext other
      rw [disk_at]
      simp only [FsOp.run, Volume.relink, FsOp.apply, Disk.set, bindName, disk_at]
      split
      · rfl
      · split <;> rfl
  | unlink name =>
      funext other
      rw [disk_at]
      simp only [FsOp.run, Volume.relink, FsOp.apply, Disk.set, bindName, disk_at]
      split <;> rfl
  | fsyncDir => rfl

include proper in
theorem run_all_proper (ops : List (FsOp N)) : (runAll v ops).Proper := by
  induction ops generalizing v with
  | nil => exact proper
  | cons op rest ih => exact ih (op.run v) (run_proper v proper op)

include proper in
theorem run_all_disk (ops : List (FsOp N)) : (runAll v ops).disk = applyAll v.disk ops := by
  induction ops generalizing v with
  | nil => rfl
  | cons op rest ih => rw [run_all_cons, ih (op.run v) (run_proper v proper op), run_disk v proper op, apply_all_cons]

end Steps

theorem live_frame (v : Volume N) (op : FsOp N) (name : N) (untouched : name ∉ op.touches) :
    (op.run v).live name = v.live name := by
  cases op with
  | create target =>
      rw [FsOp.run]
      split
      · rfl
      · exact bind_other _ _ _ _ (fun same => untouched (by simp [FsOp.touches, same]))
  | truncate target =>
      rw [FsOp.run]
      split
      · rfl
      · exact bind_other _ _ _ _ (fun same => untouched (by simp [FsOp.touches, same]))
  | rename source target =>
      simp only [FsOp.touches, List.mem_cons, List.not_mem_nil, or_false, not_or] at untouched
      exact (bind_other _ _ _ _ untouched.1).trans (bind_other _ _ _ _ untouched.2)
  | unlink target => exact bind_other _ _ _ _ (fun same => untouched (by simp [FsOp.touches, same]))
  | _ => rfl

section Frames

variable (v : Volume N) (op : FsOp N)

theorem dirs_frame (proper : v.Proper) (dir : N → Option Nat) (member : dir ∈ (op.run v).dirs) :
    ∃ earlier ∈ v.dirs, ∀ other, other ∉ op.touches → dir other = earlier other := by
  have relinked : ∀ change : (N → Option Nat) → N → Option Nat, dir ∈ v.dirs ++ v.dirs.map change →
      (∀ old other, other ∉ op.touches → change old other = old other) →
      ∃ earlier ∈ v.dirs, ∀ other, other ∉ op.touches → dir other = earlier other := by
    intro change inside same
    rcases List.mem_append.mp inside with old | new
    · exact ⟨dir, old, fun _ _ => rfl⟩
    · obtain ⟨earlier, there, rfl⟩ := List.mem_map.mp new
      exact ⟨earlier, there, fun other untouched => same earlier other untouched⟩
  cases op with
  | create target =>
      rw [FsOp.run] at member
      split at member
      · exact ⟨dir, member, fun _ _ => rfl⟩
      · exact relinked _ member
          (fun old other untouched => bind_other _ _ _ _ (fun same => untouched (by simp [FsOp.touches, same])))
  | truncate target =>
      rw [FsOp.run] at member
      split at member
      · exact ⟨dir, member, fun _ _ => rfl⟩
      · exact relinked _ member
          (fun old other untouched => bind_other _ _ _ _ (fun same => untouched (by simp [FsOp.touches, same])))
  | rename source target =>
      refine relinked _ member (fun old other untouched => ?_)
      simp only [FsOp.touches, List.mem_cons, List.not_mem_nil, or_false, not_or] at untouched
      exact (bind_other _ _ _ _ untouched.1).trans (bind_other _ _ _ _ untouched.2)
  | unlink target =>
      exact relinked _ member
        (fun old other untouched => bind_other _ _ _ _ (fun same => untouched (by simp [FsOp.touches, same])))
  | fsyncDir => exact ⟨v.live, proper.current, fun other _ => by rw [List.mem_singleton.mp member]⟩
  | _ => exact ⟨dir, member, fun _ _ => rfl⟩

theorem nodes_frame (i : Nat) (old : i < v.next) (others : ∀ other ∈ op.edits, v.live other ≠ some i) :
    (op.run v).nodes i = v.nodes i := by
  have made : ∀ target, (v.make target).nodes i = v.nodes i := fun target => if_neg (Nat.ne_of_lt old)
  cases op with
  | create target =>
      rw [FsOp.run]
      split
      · rfl
      · exact made target
  | truncate target =>
      rw [FsOp.run]
      split
      · exact if_neg (others target (by simp [FsOp.edits]))
      · exact made target
  | append target bytes => exact if_neg (others target (by simp [FsOp.edits]))
  | pwrite target offset bytes => exact if_neg (others target (by simp [FsOp.edits]))
  | fsync target => exact if_neg (others target (by simp [FsOp.edits]))
  | _ => rfl

end Frames

-- Writes to one file go through every step on others.
theorem edit_comm (v : Volume N) (proper : v.Proper) (name : N) (change : Node → Node) (op : FsOp N)
    (untouched : name ∉ op.touches) :
    op.run (v.edit name change) = (op.run v).edit name change := by
  have made : ∀ target, name ≠ target → (v.edit name change).make target = (v.make target).edit name change := by
    intro target different
    have nodes : ((v.edit name change).make target).nodes = ((v.make target).edit name change).nodes := by
      funext i
      change (if i = v.next then (⟨⟨[], 0⟩, none⟩ : Node) else if v.live name =
        some i then change (v.nodes i) else v.nodes i) =
        if bindName v.live target (some v.next) name = some i then
          change (if i = v.next then (⟨⟨[], 0⟩, none⟩ : Node) else v.nodes i) else if i =
            v.next then ⟨⟨[], 0⟩, none⟩ else v.nodes i
      rw [bind_other _ _ _ _ different]
      by_cases fresh : i = v.next
      · rw [if_pos fresh, if_pos fresh, if_neg (fun here => Nat.lt_irrefl _ (live_made v proper name _ (fresh ▸ here)))]
      · rw [if_neg fresh, if_neg fresh]
    exact congrArg (fun nodes => { v.make target with nodes := nodes }) nodes
  cases op with
  | create target =>
      rw [FsOp.run, FsOp.run]
      change (if (v.live target).isSome then v.edit name change else (v.edit name change).make target) = _
      split
      · rfl
      · exact made target (fun same => untouched (by simp [FsOp.touches, same]))
  | truncate target =>
      have different : name ≠ target := fun same => untouched (by simp [FsOp.touches, same])
      rw [FsOp.run, FsOp.run]
      change (if (v.live target).isSome then (v.edit name change).edit target Node.cut
        else (v.edit name change).make target) = _
      split
      · exact edit_edit v proper name target different change _
      · exact made target different
  | append target bytes =>
      exact edit_edit v proper name target (fun same => untouched (by simp [FsOp.touches, same])) change _
  | pwrite target offset bytes =>
      exact edit_edit v proper name target (fun same => untouched (by simp [FsOp.touches, same])) change _
  | fsync target => exact edit_edit v proper name target (fun same => untouched (by simp [FsOp.touches, same])) change _
  | rename source target =>
      simp only [FsOp.touches, List.mem_cons, List.not_mem_nil, or_false, not_or] at untouched
      refine edit_relink v name change (fun dir => bindName (bindName dir target (v.live source)) source none) ?_
      exact (bind_other _ _ _ _ untouched.1).trans (bind_other _ _ _ _ untouched.2)
  | unlink target =>
      refine edit_relink v name change (fun dir => bindName dir target none) ?_
      exact bind_other _ _ _ _ (fun same => untouched (by simp [FsOp.touches, same]))
  | fsyncDir => rfl

theorem edit_run_all (v : Volume N) (proper : v.Proper) (name : N) (change : Node → Node) (ops : List (FsOp N))
    (untouched : ∀ op ∈ ops, name ∉ op.touches) :
    runAll (v.edit name change) ops = (runAll v ops).edit name change := by
  induction ops generalizing v with
  | nil => rfl
  | cons op rest ih =>
      rw [run_all_cons, run_all_cons, edit_comm v proper name change op (untouched op (by simp)),
        ih (op.run v) (run_proper v proper op) (fun other member => untouched other (by simp [member]))]

-- A property of every volume in the course of some steps.
def Always (P : Volume N → Prop) (v : Volume N) (ops : List (FsOp N)) : Prop := ∀ done, done <+: ops → P (runAll v done)

theorem always_nil (P : Volume N → Prop) (v : Volume N) (holds : P v) : Always P v [] := by
  intro done part
  rw [List.prefix_nil.mp part]
  exact holds

theorem always_cons (P : Volume N → Prop) (v : Volume N) (op : FsOp N) (rest : List (FsOp N)) :
    Always P v (op :: rest) ↔ P v ∧ Always P (op.run v) rest := by
  constructor
  · intro all
    refine ⟨all [] List.nil_prefix, fun done part => ?_⟩
    exact all (op :: done) (List.cons_prefix_cons.mpr ⟨rfl, part⟩)
  · rintro ⟨now, later⟩ done part
    cases done with
    | nil => exact now
    | cons first done =>
        obtain ⟨same, inner⟩ := List.cons_prefix_cons.mp part
        subst same
        exact later done inner

theorem always_append (P : Volume N → Prop) (v : Volume N) (front back : List (FsOp N)) :
    Always P v (front ++ back) ↔ Always P v front ∧ Always P (runAll v front) back := by
  induction front generalizing v with
  | nil =>
      refine ⟨fun all => ⟨always_nil P v (all [] List.nil_prefix), all⟩, fun both => both.2⟩
  | cons op rest ih => rw [List.cons_append, always_cons, always_cons, ih, and_assoc, run_all_cons]

end Ops

end Tombstash
