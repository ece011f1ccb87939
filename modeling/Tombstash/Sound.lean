import Tombstash.Moves

set_option autoImplicit false

namespace Tombstash

variable {serial : Prop}

def inFlight (db : DB) : List MergeJob := db.compactor.toList ++ db.callers

-- A separated record points into the generation of the log.
def InRange (log : ValueLog) (rec : Record) : Prop :=
  rec.separated = true → rec.vptr.gen = log.gen ∧ rec.vptr.offset.toNat + rec.vptr.len.toNat ≤ log.file.length

structure FlushSound (sealed : Memtable) (seq i : Nat) (log : ValueLog) (job : FlushJob) : Prop where
  reserved : job.seq = seq
  target : job.log = i
  progress : ∃ originals, sealed.snapshot = originals ++ job.pending ∧
    List.Forall₂ (Separation log) originals job.finished
  built : ∀ io sst, job.built = some (io, sst) → job.pending = [] ∧ Represents sst job.finished

-- A merge and the tables it was picked from, which stay in the list as long as
-- merges run one at a time.
structure MergeSound (serial : Prop) (tables : List Table) (job : MergeJob) : Prop where
  present : serial → ∀ table ∈ job.inputs, table ∈ tables
  formed : ∀ table ∈ job.inputs, table.sst.WellFormed
  nonempty : job.inputs ≠ []
  waiting : job.groups = none → job.built = none
  seqs : job.leveled = false → ∃ seq, job.seqs = [seq]
  merged : ∀ groups, job.groups = some groups → ∃ records,
    mergeRecords (job.inputs.map Table.sst) job.dropTombstones = .ok records ∧ groups.flatten = records ∧
      (job.leveled = false → groups = [records]) ∧ (job.leveled = true → ∀ group ∈ groups, group ≠ [])
  built : ∀ io outputs, job.built = some (io, outputs) → ∃ groups, job.groups = some groups ∧
    List.Forall₂ (fun output group => Represents output.2 group) outputs groups
  named : ∀ io outputs, job.built = some (io, outputs) → outputs.map Prod.fst = job.seqs.map sstName

-- What holds in every state: one current value log, readable tables and
-- consistent workers; and, as long as merges run one at a time, tables that
-- point into the log and a flag that says whether a merge is running.
structure Sound (serial : Prop) (db : DB) (i : Nat) (log : ValueLog) : Prop where
  vlogs : db.vlogs = [(db.currentGen, i)]
  object : db.logs[i]? = some log
  gen : log.gen = db.currentGen
  name : log.name = vlogName db.currentGen
  aligned : log.Aligned
  small : ∀ other ∈ db.logs, other.file.length < offMax
  formed : ∀ table ∈ db.sstables, table.sst.WellFormed
  ranges : serial → ∀ table ∈ db.sstables, ∀ rec ∈ table.sst.records, InRange log rec
  distinct : (tableIds db.sstables).Nodup
  older : ∀ table ∈ db.sstables, table.id < db.nextId
  idle : db.hasFlushing = false → db.flusher = none
  flusher : ∀ job, db.flusher = some job → FlushSound db.flushingMemtable db.flushingSeq i log job
  single : serial → (inFlight db).length ≤ 1
  flag : serial → db.compacting = !(inFlight db).isEmpty
  merges : ∀ job ∈ inFlight db, MergeSound serial db.sstables job

-- Later states of the log objects.
def LogsGrow (logs later : List ValueLog) : Prop :=
  ∀ (i : Nat) log, logs[i]? = some log → ∃ log', later[i]? = some log' ∧ Grows log log'

theorem logs_grow_refl (logs : List ValueLog) :
    LogsGrow logs logs := fun _ log present => ⟨log, present, grows_refl log⟩

theorem logs_grow_trans (first second third : List ValueLog) (one : LogsGrow first second)
    (two : LogsGrow second third) : LogsGrow first third := by
  intro i log present
  obtain ⟨middle, there, grows⟩ := one i log present
  obtain ⟨last, finally_, growsMore⟩ := two i middle there
  exact ⟨last, finally_, grows_trans log middle last grows growsMore⟩

theorem logs_grow_set (logs : List ValueLog) (i : Nat) (log later : ValueLog) (present : logs[i]? = some log)
    (grows : Grows log later) : LogsGrow logs (logs.set i later) := by
  intro j other there
  by_cases same : i = j
  · subst same
    rw [present] at there
    cases there
    have bound := (List.getElem?_eq_some_iff.mp present).1
    exact ⟨later, by simp [bound], grows⟩
  · exact ⟨other, by rw [List.getElem?_set_ne same]; exact there, grows_refl other⟩

theorem logs_grow_append (logs : List ValueLog) (log : ValueLog) : LogsGrow logs (logs ++ [log]) := by
  intro i other there
  have bound := (List.getElem?_eq_some_iff.mp there).1
  exact ⟨other, by rw [List.getElem?_append_left bound]; exact there, grows_refl other⟩

theorem small_set (logs : List ValueLog) (i : Nat) (later : ValueLog) (small : ∀ log ∈ logs, log.file.length < offMax)
    (aligned : later.Aligned) : ∀ log ∈ logs.set i later, log.file.length < offMax := by
  intro log member
  rcases List.mem_or_eq_of_mem_set member with old | new
  · exact small log old
  · rw [new]
    exact aligned.small

theorem in_range_grows (log later : ValueLog) (rec : Record) (grows : Grows log later) (inRange : InRange log rec) :
    InRange later rec := by
  intro separated
  obtain ⟨gen, inside⟩ := inRange separated
  exact ⟨gen.trans grows.gen.symm, Nat.le_trans inside grows.file.length_le⟩

theorem separation_in_range (log : ValueLog) (original rec : Record) (inline : original.separated = false)
    (separation : Separation log original rec) : InRange log rec := by
  intro separated
  rcases separation.stored with same | ⟨_, _, _, gen, points⟩
  · rw [same, inline] at separated
    cases separated
  · exact ⟨gen, points.inside⟩

theorem separations_in_range (log : ValueLog) (originals records : List Record)
    (separations : List.Forall₂ (Separation log) originals records)
    (inline : ∀ rec ∈ originals, rec.separated = false) : ∀ rec ∈ records, InRange log rec := by
  intro rec member
  obtain ⟨original, inside, separation⟩ := forall_two_right _ originals records separations rec member
  exact separation_in_range log original rec (inline original inside) separation

theorem merge_sound_mono (tables more : List Table) (job : MergeJob) (sub : serial → ∀ table ∈ tables, table ∈ more)
    (sound : MergeSound serial tables job) : MergeSound serial more job :=
  ⟨fun one table member => sub one table (sound.present one table member), sound.formed, sound.nonempty, sound.waiting,
    sound.seqs, sound.merged, sound.built, sound.named⟩

theorem job_split (db : DB) (worker : Worker) (job : MergeJob) (running : db.job worker = some job) :
    ∃ before after, inFlight db = before ++ job :: after ∧
      (∀ next, inFlight (db.setJob next worker) = before ++ next :: after) ∧
      inFlight (db.endJob worker) = before ++ after := by
  cases worker with
  | compactor =>
      have here : db.compactor = some job := running
      exact ⟨[], db.callers, by simp [inFlight, here], fun next => by simp [inFlight, DB.setJob],
        by simp [inFlight, DB.endJob]⟩
  | caller index =>
      have here : db.callers[index]? = some job := running
      obtain ⟨bound, atIndex⟩ := List.getElem?_eq_some_iff.mp here
      refine ⟨db.compactor.toList ++ db.callers.take index, db.callers.drop (index + 1), ?_, fun next => ?_, ?_⟩
      · rw [inFlight, List.append_assoc, ← atIndex, ← List.drop_eq_getElem_cons bound, List.take_append_drop]
      · rw [inFlight, List.append_assoc]
        simp only [DB.setJob]
        rw [List.set_eq_take_append_cons_drop, if_pos bound]
      · rw [inFlight, List.append_assoc]
        simp only [DB.endJob]
        rw [List.eraseIdx_eq_take_drop_succ]

theorem job_running (db : DB) (worker : Worker) (job : MergeJob) (running : db.job worker = some job) :
    job ∈ inFlight db := by
  obtain ⟨before, after, jobs, _⟩ := job_split db worker job running
  simp [jobs]

theorem no_merge_running (db : DB) (merges : inFlight db = []) (worker : Worker) (job : MergeJob) :
    db.job worker ≠ some job := by
  intro running
  have inside := job_running db worker job running
  rw [merges] at inside
  cases inside

theorem set_job_members (db : DB) (worker : Worker) (job next other : MergeJob) (running : db.job worker = some job)
    (member : other ∈ inFlight (db.setJob next worker)) : other = next ∨ other ∈ inFlight db := by
  obtain ⟨before, after, jobs, set, _⟩ := job_split db worker job running
  rw [set next] at member
  rw [jobs]
  rcases List.mem_append.mp member with early | late
  · exact .inr (List.mem_append_left _ early)
  · exact (List.mem_cons.mp late).imp id (fun later => List.mem_append_right _ (List.mem_cons_of_mem _ later))

theorem end_job_members (db : DB) (worker : Worker) (job other : MergeJob) (running : db.job worker = some job)
    (member : other ∈ inFlight (db.endJob worker)) : other ∈ inFlight db := by
  obtain ⟨before, after, jobs, _, ended⟩ := job_split db worker job running
  rw [ended] at member
  rw [jobs]
  rcases List.mem_append.mp member with early | late
  · exact List.mem_append_left _ early
  · exact List.mem_append_right _ (List.mem_cons_of_mem _ late)

theorem ended_jobs (db base : DB) (worker : Worker) (sameCompactor : base.compactor = db.compactor)
    (sameCallers : base.callers = db.callers) : inFlight (base.endJob worker) = inFlight (db.endJob worker) := by
  cases worker <;> simp [inFlight, DB.endJob, sameCompactor, sameCallers]

theorem only_job (db : DB) (worker : Worker) (job : MergeJob) (single : (inFlight db).length ≤ 1)
    (running : db.job worker = some job) :
    inFlight db = [job] ∧ (∀ next, inFlight (db.setJob next worker) = [next]) ∧ inFlight (db.endJob worker) = [] := by
  cases worker with
  | compactor =>
      have here : db.compactor = some job := running
      have alone : db.callers = [] := by
        simp only [inFlight, here, Option.toList_some, List.singleton_append, List.length_cons] at single
        exact List.eq_nil_of_length_eq_zero (by omega)
      simp [inFlight, DB.setJob, DB.endJob, here, alone]
  | caller index =>
      have here : db.callers[index]? = some job := running
      obtain ⟨bound, atIndex⟩ := List.getElem?_eq_some_iff.mp here
      simp only [inFlight, List.length_append] at single
      have noCompactor : db.compactor = none := by
        cases found : db.compactor with
        | none => rfl
        | some other =>
            rw [found] at single
            simp only [Option.toList_some, List.length_singleton] at single
            omega
      obtain ⟨only, shape⟩ : ∃ only, db.callers = [only] := List.length_eq_one_iff.mp (by omega)
      have zero : index = 0 := by
        rw [shape, List.length_singleton] at bound
        omega
      subst zero
      have same : only = job := by simpa [shape] using here
      simp [inFlight, DB.setJob, DB.endJob, noCompactor, shape, same]

theorem sound_unique (db : DB) (i j : Nat) (log other : ValueLog) (one : Sound serial db i log)
    (two : Sound serial db j other) :
    i = j ∧ log = other := by
  have same := one.vlogs.symm.trans two.vlogs
  simp only [List.cons.injEq, Prod.mk.injEq, true_and, and_true] at same
  subst same
  have object := one.object
  rw [two.object] at object
  cases object
  exact ⟨rfl, rfl⟩

theorem sound_index (db : DB) (i : Nat) (log : ValueLog) (sound : Sound serial db i log) :
    logIndex db.vlogs db.currentGen = some i ∧ lookupLog db.logs db.vlogs db.currentGen = some log := by
  have index : logIndex db.vlogs db.currentGen = some i := by simp [logIndex, sound.vlogs]
  exact ⟨index, by rw [lookupLog, index, Option.bind_some, sound.object]⟩

theorem sound_current (db : DB) (i : Nat) (log : ValueLog) (sound : Sound serial db i log) (k : Nat)
    (current : ValueLog) (index : logIndex db.vlogs db.currentGen = some k) (object : db.logs[k]? = some current) :
    i = k ∧ log = current := by
  rw [(sound_index db i log sound).1] at index
  cases index
  rw [sound.object] at object
  exact ⟨rfl, Option.some.inj object⟩

end Tombstash
