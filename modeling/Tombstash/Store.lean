import Tombstash.Arrange

set_option autoImplicit false

namespace Tombstash

variable {found : Bytes}

-- The invariant of a store that holds a history of writes.
structure Inv (cfg : Config) (db : DB) (history : List Write) : Prop where
  refined : ∃ i log done sealed active stamp, Sound True db i log ∧ Hist db log done sealed active stamp ∧
    done ++ sealed ++ active = history
  numbered : Numbered db
  arranged : Arranged cfg db

-- What a step of a store keeps.
structure Keeps (cfg : Config) (db next : DB) (history : List Write) : Prop where
  inv : Inv cfg next history
  logs : LogsGrow db.logs next.logs
  order : cfg.leveled = true → LevelOrder db.sstables → LevelOrder next.sstables

-- The same with the writes where the split says.
structure InvAt (cfg : Config) (db : DB) (split : Split) : Prop where
  refined : ∃ i log stamp, Sound True db i log ∧ Hist db log split.done split.sealed split.active stamp
  numbered : Numbered db
  arranged : Arranged cfg db

theorem inv_at_inv (cfg : Config) (db : DB) (split : Split) (inv : InvAt cfg db split) : Inv cfg db split.all := by
  obtain ⟨i, log, stamp, sound, hist⟩ := inv.refined
  exact ⟨⟨i, log, _, _, _, stamp, sound, hist, rfl⟩, inv.numbered, inv.arranged⟩

theorem inv_split (cfg : Config) (db : DB) (history : List Write) (inv : Inv cfg db history) :
    ∃ split, InvAt cfg db split ∧ split.all = history := by
  obtain ⟨i, log, done, sealed, active, stamp, sound, hist, rfl⟩ := inv.refined
  exact ⟨⟨done, sealed, active⟩, ⟨⟨i, log, stamp, sound, hist⟩, inv.numbered, inv.arranged⟩, rfl⟩

theorem move_inv_at (cfg : Config) (db next : DB) (split : Split) (kind : Kind) (ops : List DiskOp)
    (garbage : List Bytes) (inv : InvAt cfg db split) (move : Move cfg found db kind next ops garbage)
    (calm : kind.Picks → inFlight db = []) (ready : kind = .picked → cfg.leveled = true → LevelOrder db.sstables)
    (bound : next.nextSeq < 2 ^ 64) :
    InvAt cfg next (kind.shift split) ∧ (kind.shift split).all = split.all ++ kind.writes ∧ LogsGrow db.logs next.logs ∧
      (cfg.leveled = true → LevelOrder db.sstables → LevelOrder next.sstables) := by
  obtain ⟨i, log, stamp, sound, hist⟩ := inv.refined
  obtain ⟨j, later, soundNext, grow⟩ := move_sound cfg db i log kind next ops garbage sound move (fun _ => calm)
  obtain ⟨⟨stamp', histNext⟩, same⟩ := move_hist db next log later _ _ _ stamp i cfg kind
    ops garbage j sound hist inv.arranged.placed move soundNext grow
  have change := move_table_change cfg db next i log kind ops garbage sound inv.numbered move calm ready bound
  refine ⟨⟨⟨j, later, stamp', soundNext, histNext⟩, ?_, ?_⟩, same, grow, fun leveled order => ?_⟩
  · exact move_numbered cfg db next i log kind ops garbage sound inv.numbered move bound
  · exact table_change_arranged cfg db next i log sound inv.numbered inv.arranged change
  · exact table_change_order cfg db next i log sound inv.numbered inv.arranged change leveled order

theorem move_inv (cfg : Config) (db next : DB) (history : List Write) (kind : Kind) (ops : List DiskOp)
    (garbage : List Bytes) (inv : Inv cfg db history) (move : Move cfg found db kind next ops garbage)
    (calm : kind.Picks → inFlight db = []) (ready : kind = .picked → cfg.leveled = true → LevelOrder db.sstables)
    (bound : next.nextSeq < 2 ^ 64) : Keeps cfg db next (history ++ kind.writes) := by
  obtain ⟨split, here, rfl⟩ := inv_split cfg db history inv
  obtain ⟨there, same, grow, order⟩ := move_inv_at cfg db next split kind ops garbage here move calm ready bound
  rw [← same]
  exact ⟨inv_at_inv cfg next _ there, grow, order⟩

theorem keeps_trans (cfg : Config) (db middle next : DB) (one two : List Write) (first : Keeps cfg db middle one)
    (second : Keeps cfg middle next two) : Keeps cfg db next two :=
  ⟨second.inv, logs_grow_trans _ _ _ first.logs second.logs,
    fun leveled order => second.order leveled (first.order leveled order)⟩

-- The label picks the inputs of a merge.
def Label.Picks (label : Label) : Prop := label = .compactorPick ∨ label = .compactAllPick

instance (label : Label) : Decidable label.Picks := inferInstanceAs (Decidable (_ ∨ _))

theorem label_kind_writes (label : Label) : label.kind.writes = label.write.toList := by
  cases label <;> rfl

theorem plain_kind (kind : Kind) (plain : kind.Plain) :
    kind.writes = [] ∧ ¬ kind.Picks ∧ kind ≠ .picked ∧ kind ≠ .pickedAll ∧
    kind ≠ .worked := by
  cases kind <;> first | exact plain.elim | simp [Kind.writes, Kind.Picks]

theorem takes_plain (label : Label) (first second : Kind) (takes : label.Takes first second) : second.Plain := by
  rcases takes.2 with rfl | rfl
  · cases label <;> exact trivial
  · exact trivial

theorem takes_writes (label : Label) (first second : Kind) (takes : label.Takes first second) :
    first.writes ++ second.writes = label.write.toList := by
  rw [(plain_kind second (takes_plain label first second takes)).1, List.append_nil, ← label_kind_writes]
  rcases takes.1 with rfl | ⟨flushes, rfl⟩
  · rfl
  · rw [flushes]
    rfl

theorem takes_picks (label : Label) (first second : Kind) (takes : label.Takes first second) :
    (first.Picks → label.Picks) ∧ (first = .picked → label = .compactorPick) ∧
    (first = .pickedAll → label = .compactAllPick) := by
  rcases takes.1 with rfl | ⟨_, rfl⟩
  · refine ⟨fun picks => ?_, fun picked => ?_, fun picked => ?_⟩
    · cases label <;> first | exact picks.elim | exact .inl rfl | exact .inr rfl
    · cases label <;> first | rfl | cases picked
    · cases label <;> first | rfl | cases picked
  · exact ⟨fun picks => picks.elim, nofun, nofun⟩

theorem step_inv (cfg : Config) (db : DB) (history : List Write) (label : Label) (effect : Effect)
    (inv : Inv cfg db history) (done : step cfg db label = some effect) (calm : label.Picks → inFlight db = [])
    (ready : label = .compactorPick → cfg.leveled = true → LevelOrder db.sstables) :
    Keeps cfg db effect.db (history ++ label.write.toList) := by
  obtain ⟨⟨middle, front, back, early, late, first, second, takes, one, two, _, _, _⟩, bound, _⟩ :=
    step_moves cfg db label effect done
  obtain ⟨picks, picked, _⟩ := takes_picks label first second takes
  obtain ⟨_, noPick, notPicked, _, _⟩ := plain_kind second (takes_plain label first second takes)
  have middleBound := lt_of_le_of_lt (move_counter cfg middle effect.db second back late two) bound
  have front := move_inv cfg db middle history first front early inv one (fun pick => calm (picks pick))
    (fun pick => ready (picked pick)) middleBound
  have back := move_inv cfg middle effect.db _ second back late front.inv two (fun pick => absurd pick noPick)
    (fun pick => absurd pick notPicked) bound
  rw [List.append_assoc, takes_writes label first second takes] at back
  exact keeps_trans cfg db middle effect.db _ _ front back

-- Every pick of the run is made while no other merge is between its pick and
-- its install.
def CalmRun (cfg : Config) : DB → List Label → Prop
  | _, [] => True
  | db, label :: rest =>
      ∀ effect, step cfg db label = some effect → (label.Picks → inFlight db = []) ∧ CalmRun cfg effect.db rest

instance (db : DB) : Decidable (inFlight db = []) := decidable_of_iff _ List.isEmpty_iff

instance decideCalmRun (cfg : Config) : (db : DB) → (labels : List Label) → Decidable (CalmRun cfg db labels)
  | _, [] => .isTrue trivial
  | db, label :: rest =>
      match stepped : step cfg db label with
      | none => .isTrue (fun effect done => by rw [stepped] at done; cases done)
      | some effect =>
          have := decideCalmRun cfg effect.db rest
          decidable_of_iff ((label.Picks → inFlight db = []) ∧ CalmRun cfg effect.db rest)
            ⟨fun calm other done => by rw [stepped] at done; cases done; exact calm, fun calm => calm effect stepped⟩

theorem applied_cons (label : Label) (rest : List Label) :
    applied (label :: rest) = label.write.toList ++ applied rest := by
  rw [applied, List.filterMap_cons]
  cases label.write <;> rfl

theorem run_inv (cfg : Config) (db later : DB) (history : List Write) (labels : List Label) (inv : Inv cfg db history)
    (order : cfg.leveled = true → LevelOrder db.sstables) (calm : CalmRun cfg db labels)
    (done : run cfg db labels = some later) :
    Keeps cfg db later (history ++ applied labels) ∧ (cfg.leveled = true → LevelOrder later.sstables) := by
  induction labels generalizing db history with
  | nil =>
      cases done
      have none : history ++ applied [] = history := by simp [applied]
      rw [none]
      exact ⟨⟨inv, logs_grow_refl _, fun _ same => same⟩, order⟩
  | cons label rest ih =>
      cases stepped : step cfg db label with
      | none => simp [run, stepped] at done
      | some effect =>
          rw [run, stepped, Option.bind_some] at done
          obtain ⟨here, others⟩ := calm effect stepped
          have one := step_inv cfg db history label effect inv stepped here (fun _ => order)
          obtain ⟨two, final⟩ := ih effect.db _ one.inv (fun leveled => one.order leveled (order leveled))
            others done
          rw [applied_cons, ← List.append_assoc]
          exact ⟨keeps_trans cfg db effect.db later _ _ one two, final⟩

theorem fresh_inv (cfg : Config) : Inv cfg DB.fresh [] := by
  refine ⟨⟨0, ValueLog.opened (vlogName 0) 0 [], [], [], [], fun _ _ => none, fresh_sound, ?_, rfl⟩, fresh_numbered, ?_⟩
  · exact ⟨rfl, rfl, fun _ => rfl, faithful_nil, by simp [DB.fresh]⟩
  · exact ⟨by simp [DB.fresh], by simp [inFlight, DB.fresh], by simp [inFlight, DB.fresh], by simp [DB.fresh],
      by simp [inFlight, DB.fresh], by simp [inFlight, DB.fresh]⟩

theorem inv_get (cfg : Config) (db : DB) (history : List Write) (logs : List ValueLog) (key : Bytes)
    (inv : Inv cfg db history) (grows : LogsGrow db.logs logs) (small : ∀ log ∈ logs, log.file.length < offMax) :
    (getLocked db key).finish logs key = .ok (valueOf history key) := by
  obtain ⟨i, log, done, sealed, active, stamp, sound, hist, rfl⟩ := inv.refined
  exact get_correct db i log done sealed active stamp logs key sound hist grows small

theorem inv_small (cfg : Config) (db : DB) (history : List Write) (inv : Inv cfg db history) :
    ∀ log ∈ db.logs, log.file.length < offMax := by
  obtain ⟨_, _, _, _, _, _, sound, _, _⟩ := inv.refined
  exact sound.small

end Tombstash
