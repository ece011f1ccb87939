import Tombstash.DeepLevels
import Tombstash.Histories

set_option autoImplicit false

namespace Tombstash

variable {serial : Prop}

theorem step_logs (s next : Sys) (event : Event) (running : Running False (fun _ => True) (fun _ _ => True) s)
    (within : event.Within) (stepped : s.Step event next) : LogsGrow s.db.logs next.db.logs := by
  obtain ⟨i, log, sound, _⟩ := running.inv.state
  have moves : ∀ label effect, step s.cfg s.db label = some effect → LogsGrow s.db.logs effect.db.logs := by
    intro label effect done
    obtain ⟨⟨middle, front, back, early, late, first, second, _, one, two, _⟩, _⟩ :=
      step_moves s.cfg s.db label effect done
    obtain ⟨j, later, soundMiddle, half⟩ := move_sound s.cfg s.db i log first middle front early sound one nofun
    obtain ⟨_, _, _, rest⟩ := move_sound s.cfg middle j later second effect.db back late soundMiddle two nofun
    exact logs_grow_trans _ _ _ half rest
  cases stepped with
  | lock label effect free locked finds done => exact moves label effect done
  | work label effect off done => exact moves label effect done
  | io op rest todo => exact logs_grow_refl _
  | collect name marked => exact logs_grow_refl _
  | reopen cfg next closed opens => exact within.elim
  | crash cfg image next cut opens => exact within.elim

-- The logs that a snapshot points into, whatever the session goes on with.
theorem session_logs (mid last : Sys) (after : List Event)
    (running : Running False (fun _ => True) (fun _ _ => True) mid) (within : ∀ event ∈ after, event.Within)
    (done : mid.Run after last) :
    LogsGrow mid.db.logs last.db.logs ∧ ∀ log ∈ last.db.logs, log.file.length < offMax := by
  have later : Running False (fun _ => True) (fun _ _ => True) last ∧ LogsGrow mid.db.logs last.db.logs := by
    refine sys_run_induction (fun s => Running False (fun _ => True) (fun _ _ => True) s ∧
      LogsGrow mid.db.logs s.db.logs)
      (fun _ event => event.Within) ?_ mid last after ⟨running, logs_grow_refl _⟩ ?_ done
    · rintro s event next ⟨running, grows⟩ inside stepped
      exact ⟨sys_step_running carried_nothing s next event running nofun stepped,
        logs_grow_trans _ _ _ grows (step_logs s next event running inside stepped)⟩
    · rintro before event rest s rfl _
      exact within event (by simp)
  obtain ⟨_, _, final, _⟩ := later.1.inv.state
  exact ⟨later.2, final.small⟩

-- A run of background work that crashes nowhere: its writes are where the
-- store can find them.
structure Background (s : Sys) (history : List Write) : Prop where
  kept : ∃ split, Kept anyStore True s split ∧ split.all = history
  callers : s.db.callers = []
  running : Running False (fun _ => True) (fun _ _ => True) s

theorem background_follows (s next : Sys) (event : Event) (history : List Write) (background : Background s history)
    (alone : event ≠ .lock .compactAllPick) (clean : ∀ cfg, event ≠ .crash cfg) (ready : EventReady s event)
    (stepped : s.Step event next) :
    Background next (history ++ event.write.toList) ∧
      (next.cfg.leveled = true → LevelOrder s.db.sstables → LevelOrder next.db.sstables) := by
  obtain ⟨⟨split, kept, rfl⟩, callers, running⟩ := background
  obtain ⟨after, follows⟩ :=
    step_follows s next event split kept (background_event_calm s next event callers alone stepped) ready
    clean stepped
  exact ⟨⟨⟨after, follows.kept, follows.writes⟩, background_step s next event callers alone stepped,
    sys_step_running carried_nothing s next event running nofun stepped⟩, follows.order⟩

theorem start_background (cfg : Config) (s : Sys) (starts : s.Starts cfg) : Background s [] := by
  have running : Running True (fun _ => True) (fun _ _ => True) s := start_running carried_nothing cfg s starts
  refine ⟨⟨_, start_kept cfg s starts running.inv, rfl⟩, ?_, start_running carried_nothing cfg s starts⟩
  obtain ⟨listing, _, opened⟩ := starts.opened
  exact (List.append_eq_nil_iff.mp (opened_unstarted cfg listing _ s.db s.todo opened).merges).2

theorem background_get (mid last : Sys) (history : List Write) (after : List Event)
    (background : Background mid history) (within : ∀ event ∈ after, event.Within) (done : mid.Run after last)
    (key : Bytes) :
    (getLocked mid.db key).finish last.db.logs key = .ok (valueOf history key) := by
  obtain ⟨grows, small⟩ := session_logs mid last after background.running within done
  obtain ⟨⟨split, kept, rfl⟩, _⟩ := background
  exact inv_get mid.cfg mid.db _ last.db.logs key (inv_at_inv mid.cfg mid.db split kept.held) grows small

-- Each record of a table is a write of the history, and where two tables have
-- a key the one in front has the later write.
def NewestFirst (db : DB) (history : List Write) : Prop :=
  ∃ stamp : Nat → Layer Bytes,
    (∀ table ∈ db.sstables, ∀ rec ∈ table.sst.records, ∃ n value, stamp table.id rec.key = some n ∧
      history[n]? = some (rec.key, value) ∧ Means db.logs db.vlogs rec value) ∧
    db.sstables.Pairwise (fun a b => Newer (stamp a.id) (stamp b.id))

-- A merge that drops tombstones leaves no table behind the ones it takes that
-- has a key of theirs.
def DropsLast (db : DB) : Prop :=
  ∀ job ∈ inFlight db, job.dropTombstones = true → ∀ input ∈ job.inputs, ∀ table ∈ db.sstables,
    table.id ∉ tableIds job.inputs → ∀ key, HasKey input key → HasKey table key → Before db.sstables table input

theorem held_newest_first (cfg : Config) (db : DB) (split : Split) (held : InvAt cfg db split) :
    NewestFirst db split.all := by
  obtain ⟨i, log, stamp, sound, hist⟩ := held.refined
  refine ⟨stamp, fun table member rec inside => ?_, List.pairwise_map.mp hist.faithful.ordered⟩
  have found := ascending_find Record.key _ (sound.formed table member).ascending rec inside
  obtain ⟨n, value, there, version, denotes⟩ := (hist.stamped table member).present rec.key rec found
  refine ⟨n, value, there, ?_, ?_⟩
  · have bound := (List.getElem?_eq_some_iff.mp version).1
    rw [Split.all, List.append_assoc, List.getElem?_append_left bound]
    exact version
  · have object : lookupLog db.logs db.vlogs log.gen = some log := by
      rw [sound.gen]
      exact (sound_index db i log sound).2
    exact denotes_means db.logs db.vlogs log rec value
      ⟨log, object, grows_refl log, sound.small log (List.mem_of_getElem? sound.object)⟩
      denotes

theorem arranged_drops_last (cfg : Config) (db : DB) (arranged : Arranged cfg db) : DropsLast db := by
  intro job running drop input inside table member away key hasInput hasTable
  have placed := arranged.placed job running
  cases leveled : job.leveled with
  | true =>
      rcases (placed.leveled leveled).meets table member away input inside key hasTable hasInput with
        ⟨_, before⟩ | ⟨_, kept, _⟩
      · exact before
      · rw [drop] at kept
        cases kept
  | false =>
      obtain ⟨front, back, shape, reaches⟩ := placed.tiered leveled
      rw [reaches drop, List.append_nil] at shape
      have inFront : table ∈ front := by
        rw [shape] at member
        rcases List.mem_append.mp member with here | among
        · exact here
        · exact absurd (List.mem_map_of_mem among) away
      rw [Before, shape]
      exact (List.singleton_sublist.mpr inFront).append (List.singleton_sublist.mpr inside)

theorem step_cfg (s next : Sys) (event : Event) (stepped : s.Step event next) :
    next.cfg = s.cfg ∨ event = .reopen next.cfg ∨ event = .crash next.cfg := by
  cases stepped with
  | lock => exact .inl rfl
  | work => exact .inl rfl
  | io => exact .inl rfl
  | collect => exact .inl rfl
  | reopen cfg next closed opens => exact .inr (.inl (by rw [opens.cfg]))
  | crash cfg image next cut opens => exact .inr (.inr (by rw [opens.cfg]))

-- What a client and the background threads do, leveled throughout.
def Event.Leveled : Event → Prop
  | .lock .compactAllPick | .crash _ => False
  | .reopen cfg => cfg.leveled = true
  | _ => True

theorem leveled_follows (s next : Sys) (event : Event) (history : List Write)
    (state : Background s history ∧ s.cfg.leveled = true ∧ LevelOrder s.db.sstables) (allowed : event.Leveled)
    (stepped : s.Step event next) :
    Background next (history ++ event.write.toList) ∧ next.cfg.leveled = true ∧ LevelOrder next.db.sstables := by
  obtain ⟨background, leveled, order⟩ := state
  have ready : EventReady s event := by
    unfold EventReady
    split
    · exact fun _ => order
    · trivial
  have still : next.cfg.leveled = true := by
    rcases step_cfg s next event stepped with same | reopened | crashed
    · rw [same]
      exact leveled
    · rw [reopened] at allowed
      exact allowed
    · rw [crashed] at allowed
      exact allowed.elim
  obtain ⟨after, kept⟩ := background_follows s next event history background
    (fun same => by rw [same] at allowed; exact allowed)
    (fun cfg same => by rw [same] at allowed; exact allowed) ready stepped
  exact ⟨after, still, kept still order⟩

-- With leveled compaction in every session a get returns the last write before
-- its snapshot, whenever it reads its tables. The tables stand newest first, and
-- where tombstones are dropped no older version stays behind.
theorem leveled_sessions_refine_map (cfg : Config) (start mid last : Sys) (before after : List Event)
    (starts : start.Starts cfg) (strategy : cfg.leveled = true) (leveled : ∀ event ∈ before, event.Leveled)
    (first : start.Run before mid) (within : ∀ event ∈ after, event.Within) (second : mid.Run after last) :
    (∀ key, (getLocked mid.db key).finish last.db.logs key = .ok (valueOf (written before) key)) ∧
      NewestFirst mid.db (written before) ∧ DropsLast mid.db := by
  have begins : Background start [] ∧ start.cfg.leveled = true ∧ LevelOrder start.db.sstables := by
    obtain ⟨_, same⟩ := @open_blank_inv True (storeGood fun _ _ => True) True cfg _ start blank_nothing trivial
      (fun _ _ present => by cases present) starts (fun _ _ => trivial)
    refine ⟨start_background cfg start starts, by rw [starts.cfg]; exact strategy, ?_⟩
    rw [same]
    exact .inl nofun
  obtain ⟨state, _⟩ := run_with_induction
    (fun s history => Background s history ∧ s.cfg.leveled = true ∧ LevelOrder s.db.sstables)
    (fun _ event => event.Leveled)
    (fun s event next history state allowed stepped => leveled_follows s next event history state allowed stepped) start
    mid []
    before begins (run_with_events _ start mid before leveled first)
  rw [List.nil_append] at state
  refine ⟨fun key => background_get mid last _ after state within second key, ?_⟩
  obtain ⟨split, kept, whole⟩ := state.kept
  rw [← whole]
  exact ⟨held_newest_first mid.cfg mid.db split kept.held, arranged_drops_last mid.cfg mid.db kept.held.arranged⟩

def leveledBy (minMerge : Nat) : Config :=
  { smallStore 1000 1000 with
    leveled := true, leveledTargetBytes := 1000, minMerge := minMerge, levelBudget := fun _ => 1 }

def putAndFlush (key value : Bytes) : List Event := whole (.put key value false) 1 ++ whole .flush 11

-- The work of one merge, leveled or size-tiered.
def leveledMerge : List Event :=
  [.lock .compactorPick, .work (.mergeRun .compactor), .lock .mergeReserve] ++
    List.replicate 5 (.work (.mergeIo .compactor)) ++ whole (.mergeInstall .compactor) 5

def tieredMerge : List Event :=
  [.lock .compactorPick, .work (.mergeRun .compactor)] ++ List.replicate 5 (.work (.mergeIo .compactor)) ++
    whole (.mergeInstall .compactor) 5

-- A session that merges two tables into level 1.
def leveledSession : List Event :=
  List.replicate 7 .io ++ putAndFlush [5] [] ++ putAndFlush [6] [] ++ leveledMerge ++
    [.collect (sstName 0), .collect (sstName 1)]

-- Another one on the same directory, with a write of its own.
def twoLeveledSessions : List Event :=
  leveledSession ++ [.reopen (leveledBy 2)] ++ List.replicate 2 .io ++ whole (.put [6] [7] false) 1

theorem two_leveled_sessions_get :
    ∃ last, (Sys.fresh (leveledBy 2)).Run twoLeveledSessions last ∧ last.db.get [6] = .ok (some [7]) ∧
      NewestFirst last.db (written twoLeveledSessions) := by
  obtain ⟨last, done⟩ := Option.isSome_iff_exists.mp (by decide +kernel :
    ((Sys.fresh (leveledBy 2)).execAllIn (storeNames 4) (fun _ _ => true) twoLeveledSessions).isSome = true)
  have run :=
    run_with_run _ _ last _
    (exec_all_in_run (storeNames 4) _ _ last _ (by decide +kernel) (fresh_confined _ _ (by decide +kernel)) done).1
  have events : ∀ event ∈ twoLeveledSessions, event.Leveled := by
    simp [twoLeveledSessions, leveledSession, leveledMerge, putAndFlush, whole, Event.Leveled, leveledBy]
  obtain ⟨get, newest, _⟩ := leveled_sessions_refine_map (leveledBy 2) _ last last twoLeveledSessions []
    (fresh_starts _) rfl
    events run (by simp) rfl
  refine ⟨last, run, ?_, newest⟩
  rw [DB.get, get]
  decide

-- What a client and the background threads do, with any strategy.
def Event.Clean : Event → Prop
  | .lock .compactAllPick | .crash _ => False
  | _ => True

-- A leveled session, then a size-tiered one whose merge leaves its output
-- between a newer table and level 1, then a leveled merge of level 1 alone.
def changedStrategy : List Event :=
  leveledSession ++ [.reopen (smallStore 1000 1000)] ++ List.replicate 2 .io ++ putAndFlush [1] (List.replicate 60 9) ++
    putAndFlush [2] (List.replicate 60 9) ++ putAndFlush [1] (List.replicate 200 8) ++ tieredMerge ++
    [.collect (sstName 3), .collect (sstName 4), .reopen (leveledBy 3)] ++ List.replicate 2 .io ++ leveledMerge

-- The output has the higher file number, so the reordering puts it in front.
theorem changed_strategy_resurrects :
    ∃ last, (Sys.fresh (leveledBy 2)).Run changedStrategy last ∧ last.db.get [1] = .ok (some (List.replicate 60 9)) ∧
      valueOf (written changedStrategy) [1] = some (List.replicate 200 8) := by
  have value : ((Sys.fresh (leveledBy 2)).execAllIn (storeNames 8) (fun _ _ => true) changedStrategy).map
    (fun s => s.db.get [1]) =
      some (.ok (some (List.replicate 60 9))) := by
    decide +kernel
  obtain ⟨last, done, get⟩ := Option.map_eq_some_iff.mp value
  have run :=
    run_with_run _ _ last _
    (exec_all_in_run (storeNames 8) _ _ last _ (by decide +kernel) (fresh_confined _ _ (by decide +kernel)) done).1
  exact ⟨last, run, get, by decide +kernel⟩

theorem clean_background (cfg : Config) (start last : Sys) (events : List Event) (starts : start.Starts cfg)
    (clean : ∀ event ∈ events, event.Clean) (done : start.RunWith EventReady events last) :
    Background last (written events) := by
  refine run_with_induction Background (fun s event => EventReady s event ∧ event.Clean) ?_ start last [] events
    (start_background cfg start starts) (run_with_and _ _ start last events clean done)
  rintro s event next history state ⟨ready, allowed⟩ stepped
  refine (background_follows s next event history state ?_ ?_ ready stepped).1
  · rintro rfl
    exact allowed
  · rintro _ rfl
    exact allowed

-- Whatever the strategies were, a get returns the last write as long as every
-- leveled pick has found its tables in leveled order.
theorem mixed_sessions_refine_map (cfg : Config) (start mid last : Sys) (before after : List Event)
    (starts : start.Starts cfg) (clean : ∀ event ∈ before, event.Clean) (first : start.RunWith EventReady before mid)
    (within : ∀ event ∈ after, event.Within) (second : mid.Run after last) (key : Bytes) :
    (getLocked mid.db key).finish last.db.logs key = .ok (valueOf (written before) key) := by
  exact background_get mid last _ after (clean_background cfg start mid before starts clean first) within second key

instance (a b : Table) : Decidable (LevelBefore a b) := by
  unfold LevelBefore
  infer_instance

instance (tables : List Table) : Decidable (LevelOrder tables) := inferInstanceAs (Decidable (_ ∨ _))

def readyEvent (s : Sys) : Event → Bool
  | .lock .compactorPick => !s.cfg.leveled || decide (LevelOrder s.db.sstables)
  | _ => true

theorem ready_event (s : Sys) (event : Event) (ready : readyEvent s event = true) : EventReady s event := by
  unfold readyEvent at ready
  unfold EventReady
  split
  · simp only [Bool.or_eq_true, Bool.not_eq_true', decide_eq_true_eq] at ready
    intro leveled
    rcases ready with off | order
    · rw [leveled] at off
      cases off
    · exact order
  · trivial

-- The same sessions where the size-tiered one merges nothing.
def keptStrategy : List Event :=
  leveledSession ++ [.reopen (smallStore 1000 1000)] ++ List.replicate 2 .io ++ putAndFlush [1] (List.replicate 60 9) ++
    putAndFlush [1] (List.replicate 200 8) ++ [.reopen (leveledBy 3)] ++ List.replicate 2 .io ++ leveledMerge

theorem kept_strategy_get :
    ∃ last, (Sys.fresh (leveledBy 2)).RunWith EventReady keptStrategy last ∧
    last.db.get [1] = .ok (some (List.replicate 200 8)) := by
  obtain ⟨last, done⟩ := Option.isSome_iff_exists.mp (by decide +kernel :
    ((Sys.fresh (leveledBy 2)).execAllIn (storeNames 8) readyEvent keptStrategy).isSome = true)
  have run := run_with_imp _ EventReady ready_event _ last _
    (exec_all_in_run (storeNames 8) _ _ last _ (by decide +kernel) (fresh_confined _ _ (by decide +kernel)) done).1
  have events : ∀ event ∈ keptStrategy, event.Clean := by
    simp [keptStrategy, leveledSession, leveledMerge, putAndFlush, whole, Event.Clean]
  have get :=
    mixed_sessions_refine_map (leveledBy 2) _ last last keptStrategy [] (fresh_starts _) events run (by simp) rfl [1]
  refine ⟨last, run, ?_⟩
  rw [DB.get, get]
  decide +kernel

end Tombstash
