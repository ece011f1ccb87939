import Tombstash.RotationRuns
import Tombstash.Strategies

set_option autoImplicit false

namespace Tombstash

def RotationEvent.write : RotationEvent → Option Write
  | .plain event => event.write
  | .fails label _ => label.write
  | .keeps => none

-- The writes of a run, those of the calls that threw included: they stay
-- visible.
def rotationWritten (events : List RotationEvent) : List Write := events.filterMap RotationEvent.write

-- Sessions of one strategy, without compact_all.
def RotationEvent.Steady (leveled : Bool) : RotationEvent → Prop
  | .plain (.lock .compactAllPick) => False
  | .plain (.reopen cfg) => cfg.leveled = leveled
  | _ => True

def Rotation.RunWith (allowed : Rotation → RotationEvent → Prop) : Rotation → List RotationEvent → Rotation → Prop
  | r, [], last => last = r
  | r, event :: rest, last => allowed r event ∧ ∃ next, r.Step event next ∧ next.RunWith allowed rest last

theorem rotation_induction (P : Rotation → List Write → Prop) (allowed : Rotation → RotationEvent → Prop)
    (kept : ∀ r event next history, P r history → allowed r event → r.Step event next →
      P next (history ++ event.write.toList))
    (r last : Rotation) (history : List Write) (events : List RotationEvent) (holds : P r history)
    (done : r.RunWith allowed events last) : P last (history ++ rotationWritten events) := by
  induction events generalizing r history with
  | nil =>
      cases done
      simpa [rotationWritten] using holds
  | cons event rest ih =>
      obtain ⟨here, next, stepped, remaining⟩ := done
      have split : rotationWritten (event :: rest) = event.write.toList ++ rotationWritten rest := by
        rw [rotationWritten, List.filterMap_cons]
        cases event.write <;> rfl
      rw [split, ← List.append_assoc]
      exact ih next _ (kept r event next history holds here stepped) remaining

theorem rotation_run_imp (allowed weaker : Rotation → RotationEvent → Prop)
    (events : List RotationEvent) (imp : ∀ r, ∀ event ∈ events, allowed r event → weaker r event) (r last : Rotation)
    (done : r.RunWith allowed events last) : r.RunWith weaker events last := by
  induction events generalizing r with
  | nil => exact done
  | cons event rest ih =>
      obtain ⟨here, next, stepped, remaining⟩ := done
      exact ⟨imp r event (by simp) here, next, stepped,
        ih (fun r other member => imp r other (by simp [member])) next remaining⟩

-- What holds of such a process between its steps. After a recovery the writes of
-- a left-over log count twice, so the histories agree only on what they mean.
structure Recovers (leveled : Bool) (r : Rotation) (history : List Write) : Prop where
  inv : ∃ split, RotationInv r split ∧ ∀ key, valueOf split.all key = valueOf history key
  strategy : r.sys.cfg.leveled = leveled
  order : leveled = true → LevelOrder r.sys.db.sstables

theorem value_of_append (left right writes : List Write) (same : ∀ key, valueOf left key = valueOf right key)
    (key : Bytes) :
    valueOf (left ++ writes) key = valueOf (right ++ writes) key := by
  simp only [valueOf, latest_append]
  cases latest writes key with
  | some value => rfl
  | none => exact same key

theorem start_recovers (cfg : Config) (s : Sys) (starts : s.Starts cfg) : Recovers cfg.leveled ⟨s, false⟩ [] := by
  obtain ⟨⟨split, kept, none⟩, callers⟩ := start_background cfg s starts
  refine ⟨⟨split, kept_rotation s split kept callers, fun key => by rw [none]⟩, by rw [starts.cfg], fun _ => ?_⟩
  rw [(start_held cfg s starts).2.2.2]
  exact .inl (List.forall_mem_nil _)

theorem step_recovers (leveled : Bool) (r next : Rotation) (event : RotationEvent) (history : List Write)
    (recovers : Recovers leveled r history) (steady : event.Steady leveled) (agrees : FlushAgrees r event)
    (stepped : r.Step event next) : Recovers leveled next (history ++ event.write.toList) := by
  obtain ⟨⟨split, inv, same⟩, strategy, order⟩ := recovers
  have ready : ∀ label, EventReady r.sys (.lock label) := by
    intro label
    cases label with
    | compactorPick => exact fun on => order (strategy ▸ on)
    | _ => trivial
  have kept : ∀ after : Split, after.all = split.all ++ event.write.toList →
      ∀ key, valueOf after.all key = valueOf (history ++ event.write.toList) key := by
    intro after writes key
    rw [writes]
    exact value_of_append split.all history _ same key
  cases stepped with
  | lock label effect free locked finds done there =>
      have alone : label ≠ .compactAllPick := fun picks => by
        rw [picks] at steady
        exact steady
      obtain ⟨after, invNext, writes, orderNext⟩ :=
        lock_rotates r split inv label effect free locked finds done there alone (ready label) agrees
      exact ⟨⟨after, invNext, kept after writes⟩, strategy, fun on => orderNext (strategy.trans on) (order on)⟩
  | fails label fault effect db ops free writer done seals before possible =>
      obtain ⟨after, invNext, writes, tables⟩ :=
        fails_rotates r split inv label fault effect db ops free writer done seals before
        possible
      refine ⟨⟨after, invNext, kept after writes⟩, strategy, fun on => ?_⟩
      change LevelOrder db.sstables
      rw [tables]
      exact order on
  | keeps effect free done =>
      obtain ⟨after, invNext, writes, orderNext⟩ := keeps_rotates r split inv effect free done
      exact ⟨⟨after, invNext, kept after (writes.trans (List.append_nil _).symm)⟩, strategy,
        fun on => orderNext (strategy.trans on) (order on)⟩
  | unlocked event after within unlocked stepped =>
      obtain ⟨invNext, cfg, orderNext⟩ := unlocked_rotates r split inv event after within unlocked stepped
      have nothing : event.write = none := by
        cases event with
        | lock label => exact absurd rfl (unlocked label)
        | _ => rfl
      refine ⟨⟨split, invNext, kept split ?_⟩, by rw [cfg]; exact strategy,
        fun on => orderNext (strategy.trans on) (order on)⟩
      rw [RotationEvent.write, nothing]
      exact (List.append_nil _).symm
  | reopen cfg after closed opens =>
      obtain ⟨split', invNext, alike, orderNext⟩ := reopen_rotates r split inv cfg after closed opens
      have strategyNext : cfg.leveled = leveled := steady
      refine ⟨⟨split', invNext, fun key => ?_⟩, by rw [opens.cfg]; exact strategyNext,
        fun on => orderNext (strategyNext.trans on) (order on)⟩
      rw [alike key, same key]
      exact congrArg (fun writes => valueOf writes key) (List.append_nil history).symm

-- Whatever failed on the way, after a clean close the next open shows what was
-- visible before, as long as no flush leaves an older log that disagrees with
-- its table.
theorem rotation_failures_recover (cfg again : Config) (start last : Rotation) (next : Sys)
    (events : List RotationEvent) (starts : start.sys.Starts cfg) (named : start.moved = false)
    (steady : ∀ event ∈ events, event.Steady cfg.leveled) (done : start.RunWith FlushAgrees events last)
    (closed : Closed last.sys) (opens : Opens again last.sys.disk next) (key : Bytes) :
    next.db.get key = last.sys.db.get key ∧ last.sys.db.get key = .ok (valueOf (rotationWritten events) key) := by
  have first : Recovers cfg.leveled start [] := by
    obtain ⟨s, moved⟩ := start
    subst named
    exact start_recovers cfg s starts
  obtain ⟨⟨split, inv, same⟩, _, _⟩ := rotation_induction (Recovers cfg.leveled)
    (fun r event => FlushAgrees r event ∧ event.Steady cfg.leveled)
    (fun r event next history recovers allowed stepped => step_recovers cfg.leveled r next event history recovers
      allowed.2 allowed.1
      stepped) start last [] events first
    (rotation_run_imp _ _ events (fun r event member agrees => ⟨agrees, steady event member⟩) start last done)
  obtain ⟨after, invNext, alike, _⟩ := reopen_rotates last split inv again next closed opens
  have visible := rotation_get last split inv key
  refine ⟨?_, ?_⟩
  · rw [visible, rotation_get ⟨next, false⟩ after invNext key, alike key]
  · rw [visible, same key, List.nil_append]

def Rotation.execIn (names : List Bytes) (r : Rotation) : RotationEvent → Option Rotation
  | .plain (.lock label) =>
      if r.sys.todo = [] ∧ label.kind ≠ .worked ∧ GcFinds r.sys label then
        (step r.sys.cfg r.sys.db label).bind (fun effect =>
          if effect.ops.contains (.rename walName flushingWalName) && r.moved then none
          else some
            ⟨⟨r.sys.cfg, effect.db, r.sys.disk, effect.ops.map (redirect r.moved), effect.garbage,
              r.sys.garbage ++ r.sys.doomed⟩,
              r.moved && !effect.ops.contains (.truncate walName)⟩)
      else none
  | .plain (.reopen cfg) =>
      if Closed r.sys then (Sys.opened names cfg r.sys.disk).map (fun next => ⟨next, false⟩) else none
  | .plain event => (r.sys.execIn names event).map (fun next => ⟨next, r.moved⟩)
  | .fails label fault =>
      match step r.sys.cfg r.sys.db label, beforeSeal r.sys.db label with
      | some effect, .ok (db, ops) =>
          if r.sys.todo = [] ∧ label.after = .sealed ∧ .rename walName flushingWalName ∈ effect.ops ∧
              (r.moved = true → fault.moves = false) then
            some
              ⟨⟨r.sys.cfg, db, r.sys.disk, ops.map (redirect r.moved) ++ fault.ops r.moved, [],
                r.sys.garbage ++ r.sys.doomed⟩,
                r.moved || fault.moves⟩
          else none
      | _, _ => none
  | .keeps =>
      if r.sys.todo = [] then
        (step r.sys.cfg r.sys.db .flusherPublish).map (fun effect =>
          ⟨⟨r.sys.cfg, effect.db, r.sys.disk, effect.ops.filter (fun op => decide (op ≠ .unlink flushingWalName)),
            effect.garbage, r.sys.garbage ++ r.sys.doomed⟩, r.moved⟩)
      else none

def Rotation.execAllIn (names : List Bytes) (allowed : Rotation → RotationEvent → Bool) :
    Rotation → List RotationEvent → Option Rotation
  | r, [] => some r
  | r, event :: rest =>
      if allowed r event then
        ((r.execIn names event).filter (fun next => touchOnly names next.sys.todo)).bind
          (fun next => next.execAllIn names allowed rest)
      else none

section Executions

variable (names : List Bytes) (r next : Rotation) (distinct : names.Nodup) (confined : Confined names r.sys)

include distinct confined in
theorem rotation_exec_step (event : RotationEvent) (done : r.execIn names event = some next) :
    r.Step event next ∧ ∀ name, (next.sys.disk name).isSome = true → name ∈ names := by
  -- The steps that a process makes outside its sections.
  have outside : ∀ event : Event, event.Within → (∀ label, event ≠ .lock label) →
      (r.sys.execIn names event).map (fun after => (⟨after, r.moved⟩ : Rotation)) = some next →
      r.Step (.plain event) next ∧ ∀ name, (next.sys.disk name).isSome = true → name ∈ names := by
    intro event within unlocked ran
    obtain ⟨after, exec, rfl⟩ := Option.map_eq_some_iff.mp ran
    obtain ⟨stepped, kept⟩ := exec_in_step names r.sys after event distinct confined exec
    exact ⟨.unlocked event after within unlocked stepped, kept.present⟩
  cases event with
  | plain event =>
      cases event with
      | lock label =>
          rw [Rotation.execIn] at done
          split at done
          · next guards =>
              obtain ⟨effect, ran, rest⟩ := Option.bind_eq_some_iff.mp done
              split at rest
              · cases rest
              · next possible =>
                  cases rest
                  refine ⟨.lock label effect guards.1 guards.2.1 guards.2.2 ran (fun renames => ?_), confined.present⟩
                  simpa [renames] using possible
          · cases done
      | reopen cfg =>
          rw [Rotation.execIn] at done
          split at done
          · next closed =>
              obtain ⟨after, opened, rfl⟩ := Option.map_eq_some_iff.mp done
              obtain ⟨opens, kept⟩ := opened_opens names cfg r.sys.disk after distinct confined.present opened
              exact ⟨.reopen cfg after closed opens, kept.present⟩
          · cases done
      | work label => exact outside _ trivial nofun done
      | io => exact outside _ trivial nofun done
      | collect name => exact outside _ trivial nofun done
      | crash cfg => cases done
  | fails label fault =>
      rw [Rotation.execIn] at done
      split at done
      · next effect db ops ran before =>
          split at done
          · next guards =>
              cases done
              exact ⟨.fails label fault effect db ops guards.1 guards.2.1 ran guards.2.2.1 before guards.2.2.2,
                confined.present⟩
          · cases done
      · cases done
  | keeps =>
      rw [Rotation.execIn] at done
      split at done
      · next free =>
          obtain ⟨effect, ran, rfl⟩ := Option.map_eq_some_iff.mp done
          exact ⟨.keeps effect free ran, confined.present⟩
      · cases done

include distinct confined in
theorem rotation_exec_run (allowed : Rotation → RotationEvent → Bool) (events : List RotationEvent) (last : Rotation)
    (done : r.execAllIn names allowed events = some last) :
    r.RunWith (fun r event => allowed r event = true) events last ∧ Confined names last.sys := by
  induction events generalizing r with
  | nil =>
      cases done
      exact ⟨rfl, confined⟩
  | cons event rest ih =>
      rw [Rotation.execAllIn] at done
      split at done
      · next here =>
          obtain ⟨next, filtered, remaining⟩ := Option.bind_eq_some_iff.mp done
          obtain ⟨ran, only⟩ := Option.filter_eq_some_iff.mp filtered
          obtain ⟨stepped, present⟩ := rotation_exec_step names r next distinct confined event ran
          obtain ⟨run, final⟩ := ih next ⟨present, only⟩ remaining
          exact ⟨⟨here, next, stepped, run⟩, final⟩
      · cases done

end Executions

theorem agree_iff (older newer : List Write) :
    Agree older newer ↔ ∀ write ∈ older, ∀ other ∈ newer, write.1 = other.1 →
    latest older write.1 = latest newer write.1 := by
  constructor
  · intro agree write inOlder other inNewer same
    have there : ∀ (writes : List Write) (entry : Write), entry ∈ writes →
      ∃ value, latest writes entry.1 = some value := by
      intro writes entry member
      refine Option.ne_none_iff_exists'.mp (fun none => ?_)
      exact (latest_none writes entry.1).mp none entry member rfl
    obtain ⟨first, last⟩ := there older write inOlder
    obtain ⟨second, lastNewer⟩ := there newer other inNewer
    rw [← same] at lastNewer
    rw [last, lastNewer, agree write.1 first second last lastNewer]
  · intro all key first second last lastNewer
    have same :=
      all (key, first) (latest_member older key first last) (key, second) (latest_member newer key second lastNewer) rfl
    rw [last, lastNewer] at same
    exact Option.some.inj same

instance (older newer : List Write) : Decidable (Agree older newer) := decidable_of_iff _ (agree_iff older newer).symm

def flushAgrees (r : Rotation) : RotationEvent → Bool
  | .plain (.lock .flush) | .plain (.lock (.gc _)) =>
      r.moved || decide (Agree (replayFile r.sys.disk flushingWalName) (replayFile r.sys.disk walName))
  | _ => true

theorem flush_agrees (r : Rotation) (event : RotationEvent) (agrees : flushAgrees r event = true) :
    FlushAgrees r event := by
  unfold flushAgrees at agrees
  unfold FlushAgrees
  split
  · intro still
    simpa [still] using agrees
  · intro still
    simpa [still] using agrees
  · trivial

-- A put whose seal fails at fsync_dir, a flush, and a second put and flush.
def failedRotation (key : Bytes) : List RotationEvent :=
  (List.replicate 7 Event.io).map RotationEvent.plain ++ [.fails (.put [1] [1, 1] true) .fsyncDir] ++
    (List.replicate 4 Event.io ++ whole .flush 11 ++ whole (.put key [2] true) 2 ++ whole .flush 11).map
    RotationEvent.plain

def failedStore (key : Bytes) (allowed : Rotation → RotationEvent → Bool) : Option Rotation :=
  Rotation.execAllIn (storeNames 3) allowed ⟨Sys.fresh (smallStore 3 1000), false⟩ (failedRotation key)

theorem failed_store_run (key : Bytes) (allowed : Rotation → RotationEvent → Bool)
    (runs : ((failedStore key allowed).bind (fun r => if Closed r.sys then
      Sys.opened (storeNames 3) (smallStore 3 1000) r.sys.disk else none)).isSome = true) :
    ∃ last next, failedStore key allowed = some last ∧
      Sys.opened (storeNames 3) (smallStore 3 1000) last.sys.disk = some next ∧
      Rotation.RunWith (fun r event => allowed r event = true) ⟨Sys.fresh (smallStore 3 1000), false⟩
      (failedRotation key) last ∧
      Closed last.sys ∧ Opens (smallStore 3 1000) last.sys.disk next := by
  have distinct : (storeNames 3).Nodup := by decide +kernel
  obtain ⟨next, ran⟩ := Option.isSome_iff_exists.mp runs
  obtain ⟨last, done, rest⟩ := Option.bind_eq_some_iff.mp ran
  split at rest
  · next closed =>
      obtain ⟨run, confined⟩ :=
        rotation_exec_run (storeNames 3) _ distinct (fresh_confined _ _ (by decide +kernel)) allowed _ last done
      exact ⟨last, next, done, rest, run, closed, (opened_opens _ _ _ next distinct confined.present rest).1⟩
  · cases rest

-- The first put is left in wal-flushing.log and comes back over the second.
theorem failed_rotation_shows_older :
    ∃ last next, Rotation.RunWith (fun _ _ => True) ⟨Sys.fresh (smallStore 3 1000), false⟩ (failedRotation [1]) last ∧
      Closed last.sys ∧ Opens (smallStore 3 1000) last.sys.disk next ∧ last.sys.db.get [1] = .ok (some [2]) ∧
      next.db.get [1] = .ok (some [1, 1]) := by
  obtain ⟨last, next, done, reopened, run, closed, opens⟩ := failed_store_run [1] (fun _ _ => true) (by decide +kernel)
  have before : (failedStore [1] (fun _ _ => true)).map (fun r => r.sys.db.get [1]) = some (.ok (some [2])) := by
    decide +kernel
  have after : (failedStore [1] (fun _ _ => true)).map (fun r =>
      (Sys.opened (storeNames 3) (smallStore 3 1000) r.sys.disk).map (fun s => s.db.get [1])) =
        some (some (.ok (some [1, 1]))) := by
    decide +kernel
  rw [done, Option.map_some, Option.some.injEq] at before after
  rw [reopened, Option.map_some, Option.some.injEq] at after
  exact ⟨last, next, rotation_run_imp _ _ _ (fun _ _ _ _ => trivial) _ last run, closed, opens, before, after⟩

-- With another key the same failure does no harm.
theorem failed_rotation_other_key :
    ∃ last next, Rotation.RunWith FlushAgrees ⟨Sys.fresh (smallStore 3 1000), false⟩ (failedRotation [2]) last ∧
      Opens (smallStore 3 1000) last.sys.disk next ∧ next.db.get [1] = .ok (some [1, 1]) := by
  obtain ⟨last, next, done, reopened, run, closed, opens⟩ := failed_store_run [2] flushAgrees (by decide +kernel)
  have agrees := rotation_run_imp _ FlushAgrees _ (fun r event _ => flush_agrees r event) _ last run
  have steady : ∀ event ∈ failedRotation [2], event.Steady false := by
    simp [failedRotation, whole, RotationEvent.Steady]
  obtain ⟨same, visible⟩ :=
    rotation_failures_recover (smallStore 3 1000) (smallStore 3 1000) _ last next (failedRotation [2])
    (fresh_starts _) rfl steady agrees closed opens [1]
  refine ⟨last, next, agrees, opens, ?_⟩
  rw [same, visible]
  decide +kernel

end Tombstash
