import Tombstash.Base.Volume

set_option autoImplicit false

namespace Tombstash

variable {N : Type}

-- What a loss of power leaves, but for the bytes that were not durable.
def Volume.Shows (v : Volume N) (disk : Disk N) : Prop := ∃ dir ∈ v.dirs, ∃ lost, disk = v.view dir lost

def Volume.Leaves (v : Volume N) (P : Disk N → Prop) : Prop := ∀ disk, v.Shows disk → P disk

def PowerImage (v : Volume N) (image : Disk N) : Prop := ∃ disk, v.Shows disk ∧ CrashImage disk image

-- No file has another name than these.
def Volume.Within (P : N → Prop) (v : Volume N) : Prop := ∀ dir ∈ v.dirs, ∀ name, (dir name).isSome = true → P name

theorem within_shows {P : N → Prop} (v : Volume N) (within : v.Within P) (disk : Disk N) (shown : v.Shows disk)
    (name : N) (there : (disk name).isSome = true) : P name := by
  obtain ⟨dir, member, lost, rfl⟩ := shown
  rw [Volume.view, Option.isSome_map] at there
  exact within dir member name there

-- No file has more durable bytes than bytes.
def Volume.Valid (v : Volume N) : Prop := ∀ i, (v.nodes i).file.synced ≤ (v.nodes i).file.data.length

theorem valid_shows (v : Volume N) (valid : v.Valid) (disk : Disk N) (shown : v.Shows disk) : disk.Valid := by
  obtain ⟨dir, member, lost, rfl⟩ := shown
  intro name file present
  obtain ⟨i, _, rfl⟩ := Option.map_eq_some_iff.mp present
  rw [Node.seen]
  split
  · split
    · exact Nat.le_refl _
    · exact valid i
  · exact valid i

-- The names that a step moves files to.
def FsOp.moves : FsOp N → List N
  | .rename _ target => [target]
  | _ => []

-- Every possible directory has this entry.
def Volume.Settled (v : Volume N) (name : N) : Prop := ∀ dir ∈ v.dirs, dir name = v.live name

-- No truncation of this file can be lost.
def Volume.Clean (v : Volume N) (name : N) : Prop := ∀ i, v.live name = some i → (v.nodes i).before = none

-- No possible directory has this file under another name.
def Volume.Free (v : Volume N) (name : N) : Prop :=
  ∀ i, v.live name = some i → ∀ dir ∈ v.dirs, ∀ other, other ≠ name → dir other ≠ some i

structure Volume.Firm (v : Volume N) (name : N) : Prop where
  settled : v.Settled name
  clean : v.Clean name

-- Files are moved to some names only, and written under the others.
structure Volume.Tidy (T : N → Prop) (v : Volume N) : Prop where
  proper : v.Proper
  free : ∀ name, ¬ T name → v.Free name

structure FsOp.Keeps (T : N → Prop) (op : FsOp N) : Prop where
  edits : ∀ name ∈ op.edits, ¬ T name
  moves : ∀ name ∈ op.moves, T name

theorem empty_tidy (T : N → Prop) : Volume.Tidy T (Volume.empty : Volume N) :=
  ⟨empty_proper, fun name _ i there => by cases there⟩

theorem firm_shows (v : Volume N) (name : N) (firm : v.Firm name) (disk : Disk N) (shown : v.Shows disk) :
    disk name = v.disk name := by
  obtain ⟨dir, member, lost, rfl⟩ := shown
  rw [disk_at, Volume.view, firm.settled dir member]
  cases there : v.live name with
  | none => rfl
  | some i => rw [Option.map_some, Option.map_some, seen_whole _ _ (firm.clean i there)]

theorem absent_firm (v : Volume N) (name : N) (settled : v.Settled name) (absent : v.disk name = none) :
    v.Firm name := by
  refine ⟨settled, fun i there => ?_⟩
  rw [disk_at, there] at absent
  cases absent

-- Writes that a truncation does not come with.
theorem edit_firm (v : Volume N) (name : N) (change : Node → Node)
    (keeps : ∀ node, node.before = none → (change node).before = none) (target : N) (firm : v.Firm name) :
    (v.edit target change).Firm name := by
  refine ⟨firm.settled, fun i there => ?_⟩
  change (if v.live target = some i then change (v.nodes i) else v.nodes i).before = none
  split
  · exact keeps _ (firm.clean i there)
  · exact firm.clean i there

-- The entry of a file that is written may be relied on, and so may those of the
-- other files.
theorem edit_shows {T : N → Prop} (v : Volume N) (tidy : v.Tidy T) (name : N) (plain : ¬ T name)
    (settled : v.Settled name) (change : Node → Node) (disk : Disk N) (shown : (v.edit name change).Shows disk) :
    ∃ earlier, v.Shows earlier ∧ (∀ other, other ≠ name → disk other = earlier other) ∧
      ∃ lost, disk name = (v.live name).map (fun i => (change (v.nodes i)).seen lost) ∧
        earlier name = (v.live name).map (fun i => (v.nodes i).seen lost) := by
  obtain ⟨dir, member, lost, rfl⟩ := shown
  have here := settled dir member
  refine ⟨v.view dir lost, ⟨dir, member, lost, rfl⟩, fun other different => ?_, (v.live name).elim false lost, ?_, ?_⟩
  · rw [Volume.view, Volume.view]
    cases there : dir other with
    | none => rfl
    | some i =>
        have apart : v.live name ≠ some i := fun same => tidy.free name plain i same dir member other different there
        exact congrArg (fun node : Node => some (node.seen (lost i))) (if_neg apart)
  · rw [Volume.view, here]
    cases there : v.live name with
    | none => rfl
    | some i => exact congrArg (fun node : Node => some (node.seen (lost i))) (if_pos there)
  · rw [Volume.view, here]
    cases v.live name <;> rfl

theorem write_shows {T : N → Prop} (v : Volume N) (tidy : v.Tidy T) (name : N) (plain : ¬ T name)
    (settled : v.Settled name) (change : File → File) (disk : Disk N)
    (shown : (v.edit name (Node.write change)).Shows disk) :
    ∃ earlier, v.Shows earlier ∧ (∀ other, other ≠ name → disk other = earlier other) ∧
      (disk name = earlier name ∨ disk name = (v.disk name).map change) := by
  obtain ⟨earlier, before, same, lost, after, was⟩ := edit_shows v tidy name plain settled _ disk shown
  refine ⟨earlier, before, same, ?_⟩
  rw [after, was, disk_at]
  cases v.live name with
  | none => exact .inl rfl
  | some i =>
      simp only [Option.map_some, Node.seen, Node.write]
      cases (v.nodes i).before with
      | none => exact .inr rfl
      | some old => cases lost <;> simp

theorem sync_shows {T : N → Prop} (v : Volume N) (tidy : v.Tidy T) (name : N) (plain : ¬ T name)
    (settled : v.Settled name) (disk : Disk N) (shown : (v.edit name Node.sync).Shows disk) :
    ∃ earlier, v.Shows earlier ∧ (∀ other, other ≠ name → disk other = earlier other) ∧
      disk name = (v.disk name).map (fun file => ⟨file.data, file.data.length⟩) := by
  obtain ⟨earlier, before, same, lost, after, _⟩ := edit_shows v tidy name plain settled _ disk shown
  refine ⟨earlier, before, same, ?_⟩
  rw [after, disk_at]
  cases v.live name <;> rfl

-- A truncation may be lost.
theorem cut_shows {T : N → Prop} (v : Volume N) (tidy : v.Tidy T) (name : N) (plain : ¬ T name)
    (settled : v.Settled name) (clean : v.Clean name) (file : File) (present : v.disk name = some file) (disk : Disk N)
    (shown : (v.edit name Node.cut).Shows disk) :
    ∃ earlier, v.Shows earlier ∧ (∀ other, other ≠ name → disk other = earlier other) ∧
      (disk name = some ⟨[], 0⟩ ∨
        disk name = some ⟨file.data.take file.synced, (file.data.take file.synced).length⟩) := by
  obtain ⟨earlier, before, same, lost, after, _⟩ := edit_shows v tidy name plain settled _ disk shown
  refine ⟨earlier, before, same, ?_⟩
  rw [disk_at] at present
  obtain ⟨i, there, rfl⟩ := Option.map_eq_some_iff.mp present
  rw [after, there, Option.map_some, Node.cut, clean i there, Node.seen]
  cases lost with
  | false => exact .inl rfl
  | true => exact .inr rfl

theorem relink_shows (v : Volume N) (change : (N → Option Nat) → N → Option Nat) (disk : Disk N)
    (shown : (v.relink change).Shows disk) :
    v.Shows disk ∨ ∃ dir ∈ v.dirs, ∃ lost, disk = v.view (change dir) lost := by
  obtain ⟨dir, member, lost, rfl⟩ := shown
  rcases List.mem_append.mp member with old | new
  · exact .inl ⟨dir, old, lost, rfl⟩
  · obtain ⟨earlier, inside, rfl⟩ := List.mem_map.mp new
    exact .inr ⟨earlier, inside, lost, rfl⟩

section Ops

variable [DecidableEq N]

section Frames

variable {T : N → Prop} (v : Volume N) (op : FsOp N) (name : N)

theorem settled_run (proper : v.Proper) (settled : v.Settled name) (untouched : name ∉ op.touches) :
    (op.run v).Settled name := by
  intro dir member
  obtain ⟨earlier, inside, same⟩ := dirs_frame v op proper dir member
  rw [same name untouched, live_frame v op name untouched]
  exact settled earlier inside

theorem clean_run (proper : v.Proper) (clean : v.Clean name) (untouched : name ∉ op.touches) :
    (op.run v).Clean name := by
  intro i there
  rw [live_frame v op name untouched] at there
  rw [nodes_frame v op i (live_made v proper name i there) (fun other edited here => untouched ?_)]
  · exact clean i there
  · rw [proper.single name other i there here]
    exact edits_touched op other edited

theorem firm_run (proper : v.Proper) (firm : v.Firm name) (untouched : name ∉ op.touches) : (op.run v).Firm name :=
  ⟨settled_run v op name proper firm.settled untouched, clean_run v op name proper firm.clean untouched⟩

-- A file of its own, under a new name.
theorem make_free (proper : v.Proper) (free : v.Free name) (target : N) : (v.make target).Free name := by
  intro i there dir member other different here
  rcases bind_some _ _ _ _ i there with ⟨rfl, fresh⟩ | ⟨_, old⟩
  · cases fresh
    rcases List.mem_append.mp member with before | after
    · exact Nat.lt_irrefl _ (proper.made dir before other _ here)
    · obtain ⟨earlier, inside, rfl⟩ := List.mem_map.mp after
      rw [bind_other _ _ _ _ different] at here
      exact Nat.lt_irrefl _ (proper.made earlier inside other _ here)
  · rcases List.mem_append.mp member with before | after
    · exact free i old dir before other different here
    · obtain ⟨earlier, inside, rfl⟩ := List.mem_map.mp after
      rcases bind_some _ _ _ _ i here with ⟨_, fresh⟩ | ⟨_, kept⟩
      · cases fresh
        exact Nat.lt_irrefl _ (live_made v proper name _ old)
      · exact free i old earlier inside other different kept

theorem tidy_run (tidy : v.Tidy T) (keeps : op.Keeps T) : (op.run v).Tidy T := by
  refine ⟨run_proper v tidy.proper op, fun name plain => ?_⟩
  have free := tidy.free name plain
  cases op with
  | create target =>
      rw [FsOp.run]
      split
      · exact free
      · exact make_free v name tidy.proper free target
  | truncate target =>
      rw [FsOp.run]
      split
      · exact free
      · exact make_free v name tidy.proper free target
  | rename source target =>
      intro i there dir member other different here
      rcases bind_some _ _ _ _ i there with ⟨_, none⟩ | ⟨notSource, kept⟩
      · cases none
      rcases bind_some _ _ _ _ i kept with ⟨same, _⟩ | ⟨_, old⟩
      · exact plain (same ▸ keeps.moves target (by simp [FsOp.moves]))
      · rcases List.mem_append.mp member with before | after
        · exact free i old dir before other different here
        · obtain ⟨earlier, inside, rfl⟩ := List.mem_map.mp after
          rcases bind_some _ _ _ _ i here with ⟨_, none⟩ | ⟨_, stays⟩
          · cases none
          rcases bind_some _ _ _ _ i stays with ⟨_, moved⟩ | ⟨_, still⟩
          · exact notSource (tidy.proper.single name source i old moved)
          · exact free i old earlier inside other different still
  | unlink target =>
      intro i there dir member other different here
      rcases bind_some _ _ _ _ i there with ⟨_, none⟩ | ⟨_, old⟩
      · cases none
      rcases List.mem_append.mp member with before | after
      · exact free i old dir before other different here
      · obtain ⟨earlier, inside, rfl⟩ := List.mem_map.mp after
        rcases bind_some _ _ _ _ i here with ⟨_, none⟩ | ⟨_, kept⟩
        · cases none
        · exact free i old earlier inside other different kept
  | fsyncDir =>
      intro i there dir member other different here
      rw [List.mem_singleton.mp member] at here
      exact different (tidy.proper.single other name i here there)
  | _ => exact free

-- What a loss of power may leave after a step, it may have left before, but for
-- the names that the step touches.
theorem shows_frame (tidy : v.Tidy T) (keeps : op.Keeps T) (disk : Disk N) (shown : (op.run v).Shows disk) :
    ∃ earlier, v.Shows earlier ∧ ∀ other, other ∉ op.touches → disk other = earlier other := by
  obtain ⟨dir, member, lost, rfl⟩ := shown
  obtain ⟨before, inside, same⟩ := dirs_frame v op tidy.proper dir member
  refine ⟨v.view before lost, ⟨before, inside, lost, rfl⟩, fun other untouched => ?_⟩
  rw [Volume.view, Volume.view, same other untouched]
  cases there : before other with
  | none => rfl
  | some i =>
      rw [Option.map_some, Option.map_some, nodes_frame v op i (tidy.proper.made before inside other i there)
        (fun target edited here => ?_)]
      refine tidy.free target (keeps.edits target edited) i here before inside other (fun equal => untouched ?_) there
      rw [equal]
      exact edits_touched op target edited

theorem within_run (proper : v.Proper) (P : N → Prop) (within : v.Within P) (touches : ∀ name ∈ op.touches, P name) :
    (op.run v).Within P := by
  intro dir member other there
  obtain ⟨earlier, inside, same⟩ := dirs_frame v op proper dir member
  by_cases touched : other ∈ op.touches
  · exact touches other touched
  · rw [same other touched] at there
    exact within earlier inside other there

theorem fsync_dir_settled : (FsOp.fsyncDir.run v).Settled name := by
  intro dir member
  rw [List.mem_singleton.mp member]
  rfl

end Frames

-- An fsync of a file that is durable.
theorem sync_same (v : Volume N) (name : N) (bytes : Bytes) (clean : v.Clean name)
    (present : v.disk name = some ⟨bytes, bytes.length⟩) :
    (FsOp.fsync name).run v = v := by
  have nodes : (v.edit name Node.sync).nodes = v.nodes := by
    funext i
    change (if v.live name = some i then Node.sync (v.nodes i) else v.nodes i) = v.nodes i
    split
    · next there =>
        rw [disk_at, there, Option.map_some, Option.some.injEq] at present
        rw [Node.sync, present]
        exact congrArg₂ Node.mk present.symm (clean i there).symm
    · rfl
  exact congrArg (fun nodes => { v with nodes := nodes }) nodes

-- Steps that write to a file and do not truncate it.
def FsOp.Writes : FsOp N → Prop
  | .append _ _ | .pwrite _ _ _ | .fsync _ => True
  | _ => False

theorem writes_edit (op : FsOp N) (writes : op.Writes) :
    ∃ name change, op.touches = [name] ∧ (∀ node : Node, node.before = none → (change node).before = none) ∧
      ∀ v : Volume N, op.run v = v.edit name change := by
  cases op with
  | append name bytes =>
      exact ⟨name, Node.write (fun file => ⟨file.data ++ bytes, file.synced⟩), rfl, fun _ whole => whole, fun _ => rfl⟩
  | pwrite name offset bytes =>
      exact ⟨name, Node.write (fun file => ⟨overwrite file.data offset bytes, min file.synced offset⟩), rfl,
        fun _ whole => whole, fun _ => rfl⟩
  | fsync name => exact ⟨name, Node.sync, rfl, fun _ _ => rfl, fun _ => rfl⟩
  | _ => exact writes.elim

theorem writes_settled (v : Volume N) (op : FsOp N) (writes : op.Writes) (name : N) (settled : v.Settled name) :
    (op.run v).Settled name := by
  obtain ⟨target, change, _, _, run⟩ := writes_edit op writes
  rw [run]
  exact settled

theorem writes_firm (v : Volume N) (op : FsOp N) (writes : op.Writes) (name : N) (firm : v.Firm name) :
    (op.run v).Firm name := by
  obtain ⟨target, change, _, keeps, run⟩ := writes_edit op writes
  rw [run]
  exact edit_firm v name change keeps target firm

-- They go through every step on other files.
theorem writes_swap (v : Volume N) (proper : v.Proper) (ops writes : List (FsOp N)) (all : ∀ op ∈ writes, op.Writes)
    (apart : ∀ op ∈ writes, ∀ other ∈ ops, ∀ name ∈ op.touches, name ∉ other.touches) :
    runAll (runAll v ops) writes = runAll (runAll v writes) ops := by
  induction writes generalizing v with
  | nil => rfl
  | cons op rest ih =>
      obtain ⟨name, change, touches, _, run⟩ := writes_edit op (all op (by simp))
      have through : op.run (runAll v ops) = runAll (op.run v) ops := by
        rw [run, run, edit_run_all v proper name change ops (fun other member => ?_)]
        exact apart op (by simp) other member name (by simp [touches])
      rw [run_all_cons, run_all_cons, through]
      exact ih (op.run v) (run_proper v proper op) (fun other member => all other (by simp [member]))
        (fun other member => apart other (by simp [member]))

section Runs

variable {T : N → Prop} (v : Volume N) (ops : List (FsOp N))

-- What every step keeps, a run keeps.
theorem run_all_keeps (P : Volume N → Prop) (proper : v.Proper) (holds : P v)
    (keeps : ∀ op ∈ ops, ∀ v : Volume N, v.Proper → P v → P (op.run v)) : P (runAll v ops) := by
  induction ops generalizing v with
  | nil => exact holds
  | cons op rest ih =>
      exact ih (op.run v) (run_proper v proper op) (keeps op (by simp) v proper holds)
        (fun other member => keeps other (by simp [member]))

theorem tidy_run_all (tidy : v.Tidy T) (keeps : ∀ op ∈ ops, op.Keeps T) : (runAll v ops).Tidy T := by
  induction ops generalizing v with
  | nil => exact tidy
  | cons op rest ih =>
      exact ih (op.run v) (tidy_run v op tidy (keeps op (by simp))) (fun other member => keeps other (by simp [member]))

theorem firm_run_all (proper : v.Proper) (name : N) (firm : v.Firm name) (untouched : ∀ op ∈ ops, name ∉ op.touches) :
    (runAll v ops).Firm name :=
  run_all_keeps v ops (fun w => w.Firm name) proper firm (fun op member w properNow now =>
    firm_run w op name properNow now (untouched op member))

theorem settled_run_all (proper : v.Proper) (name : N) (settled : v.Settled name)
    (untouched : ∀ op ∈ ops, name ∉ op.touches) :
    (runAll v ops).Settled name :=
  run_all_keeps v ops (fun w => w.Settled name) proper settled (fun op member w properNow now =>
    settled_run w op name properNow now (untouched op member))

theorem clean_run_all (proper : v.Proper) (name : N) (clean : v.Clean name)
    (untouched : ∀ op ∈ ops, name ∉ op.touches) :
    (runAll v ops).Clean name :=
  run_all_keeps v ops (fun w => w.Clean name) proper clean (fun op member w properNow now =>
    clean_run w op name properNow now (untouched op member))

theorem shows_frame_all (tidy : v.Tidy T) (keeps : ∀ op ∈ ops, op.Keeps T) (disk : Disk N)
    (shown : (runAll v ops).Shows disk) :
    ∃ earlier, v.Shows earlier ∧ ∀ other, (∀ op ∈ ops, other ∉ op.touches) → disk other = earlier other := by
  induction ops generalizing v with
  | nil => exact ⟨disk, shown, fun _ _ => rfl⟩
  | cons op rest ih =>
      obtain ⟨middle, between, late⟩ := ih (op.run v) (tidy_run v op tidy (keeps op (by simp)))
        (fun other member => keeps other (by simp [member])) shown
      obtain ⟨earlier, first, early⟩ := shows_frame v op tidy (keeps op (by simp)) middle between
      refine ⟨earlier, first, fun other untouched => ?_⟩
      rw [late other (fun later member => untouched later (by simp [member])), early other (untouched op (by simp))]

theorem within_run_all (P : N → Prop) (proper : v.Proper) (within : v.Within P)
    (touches : ∀ op ∈ ops, ∀ name ∈ op.touches, P name) :
    (runAll v ops).Within P :=
  run_all_keeps v ops (Volume.Within P) proper within (fun op member w properNow now =>
    within_run w op properNow P now (touches op member))

end Runs

section Entries

variable (v : Volume N)

theorem rename_live (source target : N) (different : target ≠ source) :
    ((FsOp.rename source target).run v).live target = v.live source :=
  (bind_other (bindName v.live target (v.live source)) source target none different).trans
    (bind_same v.live target (v.live source))

theorem make_clean (name : N) : (v.make name).Clean name := by
  intro i there
  have fresh : (v.make name).live name = some v.next := bind_same v.live name (some v.next)
  rw [fresh] at there
  cases there
  exact congrArg Node.before (if_pos rfl)

-- A rename that may have got there.
theorem rename_shows (source target : N) (different : target ≠ source) (clean : v.Clean source) (disk : Disk N)
    (shown : ((FsOp.rename source target).run v).Shows disk) :
    v.Shows disk ∨ ∃ earlier, v.Shows earlier ∧ disk source = none ∧ disk target = v.disk source ∧
      ∀ other, other ≠ source → other ≠ target → disk other = earlier other := by
  refine (relink_shows v _ disk shown).imp id ?_
  rintro ⟨dir, member, lost, rfl⟩
  refine ⟨v.view dir lost, ⟨dir, member, lost, rfl⟩, ?_, ?_, fun other notSource notTarget => ?_⟩
  · rw [Volume.view, bind_same]
    rfl
  · rw [Volume.view, bind_other _ _ _ _ different, bind_same, disk_at]
    cases there : v.live source with
    | none => rfl
    | some i => rw [Option.map_some, Option.map_some, seen_whole _ _ (clean i there)]
  · rw [Volume.view, bind_other _ _ _ _ notSource, bind_other _ _ _ _ notTarget]
    rfl

theorem unlink_shows (name : N) (disk : Disk N) (shown : ((FsOp.unlink name).run v).Shows disk) :
    ∃ earlier, v.Shows earlier ∧ (disk name = earlier name ∨ disk name = none) ∧ ∀ other, other ≠ name →
    disk other = earlier other := by
  rcases relink_shows v _ disk shown with old | ⟨dir, member, lost, rfl⟩
  · exact ⟨disk, old, .inl rfl, fun _ _ => rfl⟩
  · refine ⟨v.view dir lost, ⟨dir, member, lost, rfl⟩, .inr ?_, fun other different => ?_⟩
    · rw [Volume.view, bind_same]
      rfl
    · rw [Volume.view, bind_other _ _ _ _ different]
      rfl

theorem make_shows (proper : v.Proper) (name : N) (disk : Disk N) (shown : (v.make name).Shows disk) :
    ∃ earlier, v.Shows earlier ∧ (disk name = earlier name ∨ disk name = some ⟨[], 0⟩) ∧
      ∀ other, other ≠ name → disk other = earlier other := by
  obtain ⟨dir, member, lost, rfl⟩ := shown
  have same : ∀ earlier ∈ v.dirs, ∀ other, (v.make name).view earlier lost other = v.view earlier lost other := by
    intro earlier inside other
    rw [Volume.view, Volume.view]
    cases there : earlier other with
    | none => rfl
    | some i =>
        rw [Option.map_some, Option.map_some]
        exact congrArg (fun node : Node => some (node.seen (lost i)))
          (if_neg (Nat.ne_of_lt (proper.made earlier inside other i there)))
  rcases List.mem_append.mp member with old | new
  · exact ⟨v.view dir lost, ⟨dir, old, lost, rfl⟩, .inl (same dir old name), fun other _ => same dir old other⟩
  · obtain ⟨earlier, inside, rfl⟩ := List.mem_map.mp new
    refine ⟨v.view earlier lost, ⟨earlier, inside, lost, rfl⟩, .inr ?_, fun other different => ?_⟩
    · rw [Volume.view, bind_same, Option.map_some]
      exact congrArg (fun node : Node => some (node.seen (lost v.next))) (if_pos rfl)
    · rw [← same earlier inside other, Volume.view, Volume.view, bind_other _ _ _ _ different]

end Entries

theorem fsync_dir_shows (v : Volume N) (proper : v.Proper) (disk : Disk N) (shown : (FsOp.fsyncDir.run v).Shows disk) :
    v.Shows disk := by
  obtain ⟨dir, member, lost, rfl⟩ := shown
  rw [List.mem_singleton.mp member]
  exact ⟨v.live, proper.current, lost, rfl⟩

-- A rename and the fsync of the directory after it.
theorem rename_firm (v : Volume N) (proper : v.Proper) (source target : N) (different : target ≠ source)
    (clean : v.Clean source) :
    (runAll v [.rename source target, .fsyncDir]).disk source = none ∧
      (runAll v [.rename source target, .fsyncDir]).disk target = v.disk source ∧
      (runAll v [.rename source target, .fsyncDir]).Firm source ∧
      (runAll v [.rename source target, .fsyncDir]).Firm target := by
  have after : (runAll v [.rename source target, .fsyncDir]).disk = (FsOp.rename source target).apply v.disk :=
    run_all_disk v proper [.rename source target, .fsyncDir]
  have moved : (runAll v [.rename source target, .fsyncDir]).live target = v.live source :=
    rename_live v source target different
  have absent : (runAll v [.rename source target, .fsyncDir]).disk source = none := by rw [after, FsOp.apply, set_same]
  refine ⟨absent, ?_, absent_firm _ source (fsync_dir_settled _ _) absent, fsync_dir_settled _ _,
    fun i there => clean i (moved.symm.trans there)⟩
  rw [after, FsOp.apply, set_other _ _ _ _ different, set_same]

theorem run_valid (v : Volume N) (op : FsOp N) (valid : v.Valid) : (op.run v).Valid := by
  have edited : ∀ name (change : Node → Node),
      (∀ node, node.file.synced ≤ node.file.data.length → (change node).file.synced ≤ (change node).file.data.length) →
      (v.edit name change).Valid := by
    intro name change keeps i
    change (if v.live name = some i then change (v.nodes i) else v.nodes i).file.synced ≤
      (if v.live name = some i then change (v.nodes i) else v.nodes i).file.data.length
    split
    · exact keeps _ (valid i)
    · exact valid i
  have made : ∀ name, (v.make name).Valid := by
    intro name i
    change (if i = v.next then (⟨⟨[], 0⟩, none⟩ : Node) else v.nodes i).file.synced ≤
      (if i = v.next then (⟨⟨[], 0⟩, none⟩ : Node) else v.nodes i).file.data.length
    split
    · exact Nat.le_refl _
    · exact valid i
  cases op with
  | create name =>
      rw [FsOp.run]
      split
      · exact valid
      · exact made name
  | truncate name =>
      rw [FsOp.run]
      split
      · exact edited name _ (fun _ _ => Nat.le_refl _)
      · exact made name
  | append name bytes =>
      refine edited name _ (fun node inside => ?_)
      simp only [Node.write, List.length_append]
      omega
  | pwrite name offset bytes =>
      exact edited name _ (fun node _ => Nat.le_trans (Nat.min_le_right _ _) (le_length_overwrite _ _ _))
  | fsync name => exact edited name _ (fun _ _ => Nat.le_refl _)
  | _ => exact valid

-- A file is written under one name and moved to another, and the directory is
-- synced.
def replaceOps (temporary name : N) (bytes : Bytes) : List (FsOp N) :=
  [.truncate temporary, .append temporary bytes, .fsync temporary, .rename temporary name, .fsyncDir]

section Replace

variable {T : N → Prop} (v : Volume N) (temporary name : N) (bytes : Bytes)

-- The first three steps.
theorem written_node :
    ∃ i, (runAll v [.truncate temporary, .append temporary bytes, .fsync temporary]).live temporary = some i ∧
      (runAll v [.truncate temporary, .append temporary bytes, .fsync temporary]).nodes i =
      ⟨⟨bytes, bytes.length⟩, none⟩ := by
  have emptied : ∃ i, ((FsOp.truncate temporary).run v).live temporary = some i ∧
      (((FsOp.truncate temporary).run v).nodes i).file = ⟨[], 0⟩ := by
    rw [FsOp.run]
    split
    · next there =>
        obtain ⟨i, here⟩ := Option.isSome_iff_exists.mp there
        refine ⟨i, here, ?_⟩
        change (if v.live temporary = some i then Node.cut (v.nodes i) else v.nodes i).file = _
        rw [if_pos here]
        rfl
    · refine ⟨v.next, bind_same _ _ _, ?_⟩
      exact congrArg Node.file (if_pos rfl)
  obtain ⟨i, here, file⟩ := emptied
  refine ⟨i, here, ?_⟩
  simp only [run_all_cons, run_all_nil]
  generalize (FsOp.truncate temporary).run v = w at here file
  simp only [FsOp.run, Volume.edit, here, if_true, Node.sync, Node.write, file, List.nil_append]

-- They touch the other name only.
theorem written_shows (tidy : v.Tidy T) (plain : ¬ T temporary) :
    Always (fun w => ∀ disk, w.Shows disk → ∃ earlier, v.Shows earlier ∧ ∀ other, other ≠ temporary →
      disk other = earlier other) v
      [.truncate temporary, .append temporary bytes, .fsync temporary] := by
  have writes : ∀ op ∈ [FsOp.truncate temporary, .append temporary bytes, .fsync temporary],
      op.edits = [temporary] ∧ op.moves = [] ∧ op.touches = [temporary] := by
    intro op member
    simp only [List.mem_cons, List.not_mem_nil, or_false] at member
    rcases member with rfl | rfl | rfl <;> exact ⟨rfl, rfl, rfl⟩
  have keeps : ∀ op ∈ [FsOp.truncate temporary, .append temporary bytes, .fsync temporary], op.Keeps T := by
    intro op member
    obtain ⟨edits, moves, _⟩ := writes op member
    refine ⟨fun other edited => ?_, fun other there => ?_⟩
    · rw [edits, List.mem_singleton] at edited
      rwa [edited]
    · rw [moves] at there
      cases there
  intro done part disk shown
  obtain ⟨earlier, first, same⟩ :=
    shows_frame_all v done tidy (fun op member => keeps op (part.subset member)) disk shown
  refine ⟨earlier, first, fun other apart => same other (fun op member touched => ?_)⟩
  rw [(writes op (part.subset member)).2.2, List.mem_singleton] at touched
  exact apart touched

-- On the way the name has its old file or the new one.
theorem replace_shows (tidy : v.Tidy T) (plain : ¬ T temporary) (moved : T name) :
    Always (fun w => ∀ disk, w.Shows disk → ∃ earlier, v.Shows earlier ∧
      (∀ other, other ≠ temporary → other ≠ name → disk other = earlier other) ∧
      (disk name = earlier name ∨ disk name = some ⟨bytes, bytes.length⟩)) v (replaceOps temporary name bytes) := by
  have different : name ≠ temporary := fun same => plain (same ▸ moved)
  have early := written_shows v temporary bytes tidy plain
  obtain ⟨i, there, node⟩ := written_node v temporary bytes
  have properWritten := run_all_proper v tidy.proper [.truncate temporary, .append temporary bytes, .fsync temporary]
  have before := early _ List.prefix_rfl
  generalize writtenAs : runAll v [FsOp.truncate temporary, .append temporary bytes, .fsync temporary] =
    w at there node properWritten before
  have clean : w.Clean temporary := by
    intro k here
    rw [there] at here
    cases here
    rw [node]
  have holds : w.disk temporary = some ⟨bytes, bytes.length⟩ := by rw [disk_at, there, Option.map_some, node]
  have renamed : ∀ disk, ((FsOp.rename temporary name).run w).Shows disk → ∃ earlier, v.Shows earlier ∧
      (∀ other, other ≠ temporary → other ≠ name → disk other = earlier other) ∧
      (disk name = earlier name ∨ disk name = some ⟨bytes, bytes.length⟩) := by
    intro disk shown
    rcases rename_shows w temporary name different clean disk shown with old | ⟨middle, old, _, atName, same⟩
    · obtain ⟨earlier, first, off⟩ := before disk old
      exact ⟨earlier, first, fun other apart _ => off other apart, .inl (off name different)⟩
    · obtain ⟨earlier, first, off⟩ := before middle old
      exact ⟨earlier, first, fun other apart notName => (same other apart notName).trans (off other apart),
        .inr (atName.trans holds)⟩
  have weaken : ∀ done, done <+: [FsOp.truncate temporary, .append temporary bytes, .fsync temporary] →
    ∀ disk, (runAll v done).Shows disk →
      ∃ earlier, v.Shows earlier ∧ (∀ other, other ≠ temporary → other ≠ name → disk other = earlier other) ∧
        (disk name = earlier name ∨ disk name = some ⟨bytes, bytes.length⟩) := by
    intro done part disk shown
    obtain ⟨earlier, first, off⟩ := early done part disk shown
    exact ⟨earlier, first, fun other apart _ => off other apart, .inl (off name different)⟩
  rw [replaceOps,
    show [FsOp.truncate temporary, .append temporary bytes, .fsync temporary, .rename temporary name, .fsyncDir] =
    [.truncate temporary, .append temporary bytes, .fsync temporary] ++ [.rename temporary name, .fsyncDir] from rfl,
    always_append, writtenAs]
  refine ⟨weaken, (always_cons _ _ _ _).mpr ⟨?_, (always_cons _ _ _ _).mpr ⟨renamed, always_nil _ _ ?_⟩⟩⟩
  · have whole := weaken _ List.prefix_rfl
    rwa [writtenAs] at whole
  · exact fun disk shown => renamed disk (fsync_dir_shows _ (run_proper w properWritten _) disk shown)

-- And in the end the new one, whatever happens.
theorem replace_firm (different : name ≠ temporary) :
    (runAll v (replaceOps temporary name bytes)).Firm name ∧
      (runAll v (replaceOps temporary name bytes)).disk name = some ⟨bytes, bytes.length⟩ ∧
      ∀ other, (runAll v (replaceOps temporary name bytes)).Settled other := by
  obtain ⟨i, there, node⟩ := written_node v temporary bytes
  have live : (runAll v (replaceOps temporary name bytes)).live name = some i :=
    (bind_other _ _ _ _ different).trans ((bind_same _ _ _).trans there)
  have nodes : (runAll v (replaceOps temporary name bytes)).nodes i = ⟨⟨bytes, bytes.length⟩, none⟩ := node
  have settled : ∀ other, (runAll v (replaceOps temporary name bytes)).Settled other :=
    fun other => fsync_dir_settled _ other
  refine ⟨⟨settled name, fun k here => ?_⟩, ?_, settled⟩
  · rw [live] at here
    cases here
    rw [nodes]
  · rw [disk_at, live, Option.map_some, nodes]

end Replace

end Ops

end Tombstash
