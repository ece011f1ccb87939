import Tombstash.Histories

set_option autoImplicit false

namespace Tombstash

variable {found : Bytes}

-- The first p writes of a store survive in its tables, in the sealed log and in
-- the durable part of the active log.
def Promised (p : Nat) (split : Split) (disk : Disk Bytes) : Prop :=
  ∃ synced sure, disk walName = some ⟨writesBytes split.active, synced⟩ ∧ sure ≤ split.active.length ∧
    (writesBytes (split.active.take sure)).length ≤ synced ∧ p ≤ split.done.length + split.sealed.length + sure

theorem length_all (split : Split) :
    split.all.length = split.done.length + split.sealed.length + split.active.length := by
  rw [Split.all, List.length_append, List.length_append]

theorem durable_promised (split : Split) (disk : Disk Bytes) (synced : Nat)
    (wal : disk walName = some ⟨writesBytes split.active, synced⟩)
      (whole : (writesBytes split.active).length ≤ synced) :
    Promised split.all.length split disk :=
  ⟨synced, split.active.length, wal, Nat.le_refl _, by rwa [List.take_length], by rw [length_all]⟩

theorem promised_same (p : Nat) (split : Split) (disk later : Disk Bytes) (same : later walName = disk walName)
    (promised : Promised p split disk) : Promised p split later := by
  obtain ⟨synced, sure, wal, rest⟩ := promised
  exact ⟨synced, sure, same.trans wal, rest⟩

theorem promised_le (p q : Nat) (split : Split) (disk : Disk Bytes) (le : q ≤ p) (promised : Promised p split disk) :
    Promised q split disk := by
  obtain ⟨synced, sure, wal, within, durable, bound⟩ := promised
  exact ⟨synced, sure, wal, within, durable, Nat.le_trans le bound⟩

theorem promised_bound (p : Nat) (split : Split) (disk : Disk Bytes) (promised : Promised p split disk) :
    p ≤ split.all.length := by
  obtain ⟨_, sure, _, within, _, bound⟩ := promised
  rw [length_all]
  omega

-- The moves after which every write is safe.
def Kind.Saves : Kind → Prop
  | .wrote _ sync => sync = true
  | .synced | .sealed | .flushed => True
  | _ => False

section Moved

variable (cfg : Config) (db next : DB) (split : Split) (disk : Disk Bytes) (kind : Kind) (work : List DiskOp)
    (garbage : List Bytes)
variable (journaled : Journaled db split disk) (move : Move cfg found db kind next (work ++ kind.walOps) garbage)
variable (apart : Apart walFiles work)

include journaled move apart in
theorem promised_saved (saves : kind.Saves) :
    Promised (kind.shift split).all.length (kind.shift split) (applyAll disk (work ++ kind.walOps)) := by
  have before :=
    journaled_same db db split disk (applyAll disk work) journaled rfl (apart_frame walFiles disk work apart)
  obtain ⟨⟨synced, wal⟩, _, _⟩ := before
  rw [apply_all_append]
  cases kind with
  | wrote write sync =>
      cases saves
      have appended : (FsOp.append walName (walRecord (writeRecord write))).apply (applyAll disk work) walName =
          some ⟨writesBytes (split.active ++ [write]), synced⟩ := by
        rw [FsOp.apply, set_same, wal, writes_bytes_append]
        rfl
      exact durable_promised _ _ _ (fsync_file _ walName _ synced appended) (Nat.le_refl _)
  | synced => exact durable_promised split _ _ (fsync_file _ walName _ synced wal) (Nat.le_refl _)
  | sealed =>
      refine durable_promised _ _ 0 ?_ (Nat.le_refl _)
      simp [Kind.walOps, Kind.shift, FsOp.apply, Disk.set, writesBytes, walBytes]
  | flushed =>
      refine durable_promised _ _ 0 ?_ (Nat.le_refl _)
      simp [Kind.walOps, Kind.shift, FsOp.apply, set_same, writesBytes, walBytes]
  | _ => exact saves.elim

include journaled move apart in
theorem promised_moved (p : Nat) (free : db.hasFlushing = false → split.sealed = [])
    (promised : Promised p split disk) :
    Promised p (kind.shift split) (applyAll disk (work ++ kind.walOps)) := by
  have bound := promised_bound p split disk promised
  have before :=
    promised_same p split disk (applyAll disk work) (apart_frame walFiles disk work apart walName (by decide)) promised
  -- Where all writes are saved there is nothing to show, but that none is lost.
  have saved : kind.Saves → split.all.length ≤ (kind.shift split).all.length →
      Promised p (kind.shift split) (applyAll disk (work ++ kind.walOps)) := fun saves longer =>
    promised_le _ p _ _ (Nat.le_trans bound longer)
      (promised_saved cfg db next split disk kind work garbage journaled move apart saves)
  cases kind with
  | wrote write sync =>
      cases sync with
      | true => exact saved rfl (by simp [length_all, Kind.shift])
      | false =>
          obtain ⟨synced, sure, wal, within, durable, bound⟩ := before
          refine ⟨synced, sure, ?_, ?_, ?_, bound⟩
          · rw [apply_all_append]
            change (FsOp.append walName (walRecord (writeRecord write))).apply (applyAll disk work) walName = _
            rw [FsOp.apply, set_same, wal, Kind.shift, writes_bytes_append]
            rfl
          · simp only [Kind.shift, List.length_append]
            omega
          · rw [Kind.shift, List.take_append_of_le_length within]
            exact durable
  | synced => exact saved trivial (Nat.le_refl _)
  | sealed =>
      have none : split.sealed = [] := by
        refine free ?_
        generalize work ++ Kind.sealed.walOps = ops at move
        cases move with
        | sealed filled free => exact free
      exact saved trivial (by simp [length_all, Kind.shift, none])
  | flushed =>
      have none : split.sealed = [] := by
        refine free ?_
        generalize work ++ Kind.flushed.walOps = ops at move
        cases move with
        | flushed k current grown recs vlogOps bytes sst filled free index object separated built => exact free
      exact saved trivial (by simp [length_all, Kind.shift, none])
  | published =>
      obtain ⟨synced, sure, wal, within, durable, bound⟩ := before
      refine ⟨synced, sure, ?_, within, durable, by simpa [Kind.shift] using bound⟩
      rw [apply_all_append, apply_all_frame _ _ walName (by decide)]
      exact wal
  | _ =>
      simp only [Kind.walOps, List.append_nil]
      exact before

end Moved

-- The logs of a history whose first base writes are in tables: the sealed log
-- and the active one follow each other in it, they start no later than the
-- tables end, and what is durable of them reaches past the tables and past the
-- first p writes.
def Replays (history : List Write) (p base : Nat) (wal flushing : Option File) : Prop :=
  ∃ front sealed active more sure, history = front ++ sealed ++ active ++ more ∧ front.length ≤ base ∧
    base ≤ front.length + sealed.length + sure ∧ p ≤ front.length + sealed.length + sure ∧ sure ≤ active.length ∧
    (flushing = none ∧ sealed = [] ∨ flushing = some (durable (writesBytes sealed))) ∧
    (wal = none ∧ active = [] ∨
      ∃ synced, wal = some ⟨writesBytes active, synced⟩ ∧ (writesBytes (active.take sure)).length ≤ synced)

theorem journaled_sealed_log (db : DB) (split : Split) (disk : Disk Bytes) (journaled : Journaled db split disk)
    (free : db.hasFlushing = false → split.sealed = []) :
    disk flushingWalName = none ∧ split.sealed = [] ∨
    disk flushingWalName = some (durable (writesBytes split.sealed)) := by
  rw [journaled.flushing]
  cases slot : db.hasFlushing with
  | true => exact .inr rfl
  | false => exact .inl ⟨rfl, free slot⟩

theorem length_take_writes (writes : List Write) (n : Nat) :
    (writesBytes (writes.take n)).length ≤ (writesBytes writes).length := by
  have parts := congrArg (fun all => (writesBytes all).length) (List.take_append_drop n writes)
  simp only [writesBytes, List.map_append, wal_bytes_append, List.length_append] at parts ⊢
  omega

theorem sealed_log_stays (disk : Disk Bytes) (op : DiskOp) (wal : op.touches = [walName]) :
    op.apply disk flushingWalName = disk flushingWalName :=
  apply_frame disk op flushingWalName (by rw [wal]; decide)

section During

variable (cfg : Config) (db next : DB) (split : Split) (disk : Disk Bytes) (kind : Kind) (ops : List DiskOp)
    (garbage : List Bytes)
variable (journaled : Journaled db split disk) (free : db.hasFlushing = false → split.sealed = [])
variable (p : Nat) (promised : Promised p split disk) (more : List Write)

include journaled free promised in
theorem replays_before : Replays (split.all ++ more) p split.done.length (disk walName) (disk flushingWalName) := by
  obtain ⟨synced, sure, wal, within, durable, bound⟩ := promised
  exact ⟨split.done, split.sealed, split.active, more, sure, rfl, Nat.le_refl _, by omega, bound, within,
    journaled_sealed_log db split disk journaled free, .inr ⟨synced, wal, durable⟩⟩

include journaled free promised in
theorem replays_synced :
    Throughout (fun d => Replays (split.all ++ more) p split.done.length (d walName) (d flushingWalName)) disk
      [.fsync walName] := by
  refine (throughout_cons _ _ _ _).mpr
    ⟨replays_before db split disk journaled free p promised more, throughout_nil _ _ ?_⟩
  obtain ⟨synced, sure, wal, within, _, bound⟩ := promised
  rw [fsync_file disk walName _ synced wal, sealed_log_stays disk _ rfl]
  exact ⟨split.done, split.sealed, split.active, more, sure, rfl, Nat.le_refl _, by omega, bound, within,
    journaled_sealed_log db split disk journaled free, .inr ⟨_, rfl, length_take_writes _ _⟩⟩

include journaled free promised in
theorem replays_wrote (write : Write) (sync : Bool) :
    Throughout (fun d => Replays (split.all ++ [write] ++ more) p split.done.length (d walName) (d flushingWalName))
    disk
      (Kind.wrote write sync).walOps := by
  have sealedLog := journaled_sealed_log db split disk journaled free
  have first := replays_before db split disk journaled free p promised ([write] ++ more)
  rw [← List.append_assoc] at first
  obtain ⟨synced, sure, wal, within, durable, bound⟩ := promised
  have shape : split.all ++ [write] ++ more = split.done ++ split.sealed ++ (split.active ++ [write]) ++ more := by
    simp [Split.all]
  have inside : sure ≤ (split.active ++ [write]).length := by
    rw [List.length_append]
    omega
  have appended : (FsOp.append walName (walRecord (writeRecord write))).apply disk walName =
      some ⟨writesBytes (split.active ++ [write]), synced⟩ := by
    rw [FsOp.apply, set_same, wal, writes_bytes_append]
    rfl
  have stays := sealed_log_stays disk (.append walName (walRecord (writeRecord write))) rfl
  refine (throughout_cons _ _ _ _).mpr ⟨first, ?_⟩
  cases sync with
  | false =>
      refine throughout_nil _ _ ?_
      rw [appended, stays]
      refine ⟨_, _, _, more, sure, shape, Nat.le_refl _, by omega, bound, inside, sealedLog, .inr ⟨synced, rfl, ?_⟩⟩
      rw [List.take_append_of_le_length within]
      exact durable
  | true =>
      refine (throughout_cons _ _ _ _).mpr ⟨?_, throughout_nil _ _ ?_⟩
      · rw [appended, stays]
        refine ⟨_, _, _, more, sure, shape, Nat.le_refl _, by omega, bound, inside, sealedLog, .inr ⟨synced, rfl, ?_⟩⟩
        rw [List.take_append_of_le_length within]
        exact durable
      · rw [fsync_file _ walName _ synced appended, sealed_log_stays _ _ rfl, stays]
        exact ⟨_, _, _, more, sure, shape, Nat.le_refl _, by omega, bound, inside, sealedLog,
          .inr ⟨_, rfl, length_take_writes _ _⟩⟩

include journaled promised in
theorem replays_sealed (none : split.sealed = []) :
    Throughout (fun d => Replays (split.all ++ more) p split.done.length (d walName) (d flushingWalName)) disk
      Kind.sealed.walOps := by
  have bound : p ≤ split.done.length + split.active.length := by
    obtain ⟨_, sure, _, within, _, bound⟩ := promised
    simp only [none, List.length_nil] at bound
    omega
  have shape : split.all ++ more = split.done ++ split.active ++ [] ++ more := by simp [Split.all, none]
  have synced := replays_synced db split disk journaled (fun _ => none) p promised more
  obtain ⟨before, wal⟩ := journaled.wal
  have saved : applyAll disk [.fsync walName] walName = some (durable (writesBytes split.active)) :=
    fsync_file disk walName _ before wal
  -- From the rename on the sealed log has everything.
  have after : ∀ d : Disk Bytes, d flushingWalName = some (durable (writesBytes split.active)) →
      (d walName = Option.none ∨ d walName = some ⟨[], 0⟩) →
      Replays (split.all ++ more) p split.done.length (d walName) (d flushingWalName) := by
    intro d sealedLog active
    refine ⟨split.done, split.active, [], more, 0, shape, Nat.le_refl _, by omega, bound, Nat.le_refl _,
      .inr sealedLog, ?_⟩
    exact active.imp (fun gone => ⟨gone, rfl⟩) (fun fresh => ⟨0, fresh, Nat.le_refl _⟩)
  have renamed : ∀ d : Disk Bytes, d walName = some (durable (writesBytes split.active)) →
      (FsOp.rename walName flushingWalName).apply d flushingWalName = some (durable (writesBytes split.active)) ∧
        (FsOp.rename walName flushingWalName).apply d walName = Option.none := by
    intro d here
    refine ⟨?_, set_same _ _ _⟩
    rw [FsOp.apply, set_other _ _ _ _ (by decide), set_same, here]
  obtain ⟨sealedLog, gone⟩ := renamed _ saved
  refine (throughout_append _ _ [.fsync walName] _).mpr
    ⟨synced, (throughout_cons _ _ _ _).mpr ⟨throughout_last _ _ _ synced, ?_⟩⟩
  refine (throughout_cons _ _ _ _).mpr
    ⟨after _ sealedLog (.inl gone), (throughout_cons _ _ _ _).mpr ⟨after _ sealedLog (.inl gone),
    throughout_nil _ _ ?_⟩⟩
  refine after _ ?_ (.inr (set_same _ _ _))
  rw [sealed_log_stays _ _ rfl]
  exact sealedLog

include journaled promised in
-- The tables already have what the log still has, so the log must not lose any
-- of it before it is emptied.
theorem replays_flushed (none : split.sealed = []) (slot : db.hasFlushing = false)
    (synced : ∀ file, disk walName = some file → file.synced = file.data.length) :
    Throughout
    (fun d => Replays (split.all ++ more) p (split.done ++ split.active).length (d walName) (d flushingWalName)) disk
      Kind.flushed.walOps := by
  have noFlushing : disk flushingWalName = Option.none := by
    rw [journaled.flushing, slot]
    rfl
  have bound : p ≤ split.done.length + split.active.length := by
    obtain ⟨_, sure, _, within, _, bound⟩ := promised
    simp only [none, List.length_nil] at bound
    omega
  obtain ⟨before, wal⟩ := journaled.wal
  have whole : before = (writesBytes split.active).length := synced _ wal
  refine (throughout_cons _ _ _ _).mpr ⟨?_, throughout_nil _ _ ?_⟩
  · refine ⟨split.done, [], split.active, more, split.active.length, by simp [Split.all, none], by simp, by simp,
      by simpa using bound, Nat.le_refl _, .inl ⟨noFlushing, rfl⟩, .inr ⟨before, wal, ?_⟩⟩
    rw [List.take_length, whole]
  · refine ⟨split.done ++ split.active, [], [], more, 0, by simp [Split.all, none], Nat.le_refl _, by simp,
      by simpa using bound, Nat.le_refl _, .inl ⟨?_, rfl⟩, .inr ⟨0, set_same _ _ _, Nat.le_refl _⟩⟩
    rw [sealed_log_stays _ _ rfl]
    exact noFlushing

include journaled promised in
theorem replays_published (slot : db.hasFlushing = true) :
    Throughout
    (fun d => Replays (split.all ++ more) p (split.done ++ split.sealed).length (d walName) (d flushingWalName)) disk
      Kind.published.walOps := by
  obtain ⟨before, sure, wal, within, durable, bound⟩ := promised
  have sealedLog : disk flushingWalName = some (Tombstash.durable (writesBytes split.sealed)) := by
    rw [journaled.flushing, if_pos slot]
  refine (throughout_cons _ _ _ _).mpr ⟨?_, throughout_nil _ _ ?_⟩
  · exact ⟨split.done, split.sealed, split.active, more, sure, rfl, by simp, by simp, bound, within, .inr sealedLog,
      .inr ⟨before, wal, durable⟩⟩
  · refine ⟨split.done ++ split.sealed, [], split.active, more, sure, by simp [Split.all], Nat.le_refl _, by simp,
      by simpa using bound, within, .inl ⟨set_same _ _ _, rfl⟩, .inr ⟨before, ?_, durable⟩⟩
    rw [apply_frame disk _ walName (by decide)]
    exact wal

include journaled free promised in
-- At every step of a move on the logs the recovered writes are a beginning of
-- the history, as long as a flush has found its log durable.
theorem replays_during (busy : db.flusher ≠ none → db.hasFlushing = true)
    (move : Move cfg found db kind next ops garbage)
    (synced : kind = .flushed → ∀ file, disk walName = some file → file.synced = file.data.length) :
    Throughout
    (fun d => Replays ((kind.shift split).all ++ more) p (kind.shift split).done.length (d walName) (d flushingWalName))
      disk kind.walOps := by
  have stays :=
    throughout_nil
    (fun d : Disk Bytes => Replays (split.all ++ more) p split.done.length (d walName) (d flushingWalName))
    disk (replays_before db split disk journaled free p promised more)
  cases move with
  | wrote write bytes sync encoded =>
      have during := replays_wrote db split disk journaled free p promised more write sync
      simpa only [Kind.shift, Split.all, ← List.append_assoc] using during
  | synced => exact replays_synced db split disk journaled free p promised more
  | sealed filled slot =>
      have none := free slot
      have during := replays_sealed db split disk journaled p promised more none
      simpa [Kind.shift, Split.all, none] using during
  | flushed k current grown recs vlogOps bytes sst filled slot index object separated built =>
      have none := free slot
      have during := replays_flushed db split disk journaled p promised more none slot (synced rfl)
      simpa [Kind.shift, Split.all, none] using during
  | published job sst running complete =>
      have during := replays_published db split disk journaled p promised more (busy (by simp [running]))
      simpa [Kind.shift, Split.all] using during
  | _ => exact stays

end During

end Tombstash
