import Tombstash.Loading

set_option autoImplicit false

namespace Tombstash

-- The name has a decimal number between its two ends.
def Spells (front back name : Bytes) (number : Nat) : Prop :=
  ∃ digits, name = front ++ digits ++ back ∧ digits ≠ [] ∧ digits.all isDigit = true ∧ digitsValue digits = number

def SstNumber (name : Bytes) (number : Nat) : Prop := Spells sstFront sstBack name number
def VlogNumber (name : Bytes) (number : Nat) : Prop := Spells vlogFront vlogBack name number

-- The numbers that parse_seq and parse_vlog_gen have room for.
def NumberFits (name : Bytes) : Prop :=
  (∀ number, SstNumber name number → number < 2 ^ 64) ∧ ∀ number, VlogNumber name number → number < 2 ^ 32

-- A file that the constructor has no use for: none of the logs, not the
-- MANIFEST nor anything in it. Without a MANIFEST it is a file whose name is
-- not accepted.
structure Stray (disk : Disk Bytes) (name : Bytes) : Prop where
  fixed : name ≠ walName ∧ name ≠ flushingWalName ∧ name ≠ manifestName
  listed : ∀ m, manifestRead (fileData disk manifestName) = .ok (some m) →
    name ∉ m.tables.map ManifestEntry.name ∧ name ≠ vlogName m.currentGen
  rejected : manifestRead (fileData disk manifestName) = .ok none →
    (∀ seq, parseSeq name ≠ .ok (some seq)) ∧ ∀ gen, parseVlogGen name ≠ .ok (some gen)

-- The files of a directory are told apart by their names.
structure Classifies (names : List Bytes) : Prop where
  seq : ∀ name ∈ names, ∃ seq, parseSeq name = .ok seq
  gen : ∀ name ∈ names, ∃ gen, parseVlogGen name = .ok gen
  apart : ∀ name ∈ names, ∀ seq gen, parseSeq name = .ok (some seq) → parseVlogGen name ≠ .ok (some gen)
  denoted : ∀ name ∈ names, ∀ gen, parseVlogGen name = .ok (some gen) → VlogNumber name gen.toNat
  distinct : ∀ disk logs ops, loadVlogs names disk = .ok (logs, ops) → ∀ left ∈ logs, ∀ right ∈ logs, ∀ m n,
    VlogNumber left.name m → VlogNumber right.name n → m ≠ n → left.gen ≠ right.gen
  strays : ∀ cfg disk name, Lists disk names → name ∈ names → Stray disk name → ∀ db ops,
    openDB cfg (names.filter (fun other => other ≠ name)) ((FsOp.unlink name).apply disk) = .ok (db, ops) →
    ∃ more, openDB cfg names disk = .ok (db, more)

theorem spells_digits (front back name digits : Bytes) (found : nameDigits front back name = some digits) :
    Spells front back name (digitsValue digits) := by
  obtain ⟨starts, ends, long⟩ := name_digits_ends front back name digits found
  rw [nameDigits, if_neg (Nat.not_le.mpr long), if_neg (not_not.mpr starts), if_neg (not_not.mpr ends)] at found
  simp only [List.isEmpty_iff] at found
  split at found
  · cases found
  · next nonempty =>
      split at found
      · next all =>
          cases found
          refine ⟨_, ?_, nonempty, all, rfl⟩
          have cut : (name.drop front.length).drop (name.length - front.length - back.length) = back := by
            rw [List.drop_drop, show front.length + (name.length - front.length - back.length) =
              name.length - back.length by omega]
            exact ends
          have middle := List.take_append_drop (name.length - front.length - back.length) (name.drop front.length)
          rw [cut] at middle
          have whole := List.take_append_drop front.length name
          rw [starts, ← middle] at whole
          rw [List.append_assoc, whole]
      · cases found

theorem spells_name_digits (front back name : Bytes) (number : Nat) (spells : Spells front back name number) :
    ∃ digits, nameDigits front back name = some digits ∧ digitsValue digits = number := by
  obtain ⟨digits, rfl, nonempty, all, value⟩ := spells
  exact ⟨digits, name_digits_exact front back digits nonempty all, value⟩

theorem spells_unique (front back name : Bytes) (m n : Nat) (left : Spells front back name m)
    (right : Spells front back name n) :
    m = n := by
  obtain ⟨first, foundFirst, rfl⟩ := spells_name_digits front back name m left
  obtain ⟨second, foundSecond, rfl⟩ := spells_name_digits front back name n right
  rw [foundFirst] at foundSecond
  cases foundSecond
  rfl

theorem parse_seq_spec (name : Bytes) : (parseSeq name = .ok none ∧ ∀ number, ¬ SstNumber name number) ∨
    ∃ number, SstNumber name number ∧
      parseSeq name = if number < 2 ^ 64 then .ok (some number) else .error (.outOfRange "stoull") := by
  cases found : nameDigits sstFront sstBack name with
  | none =>
      refine .inl ⟨by rw [parseSeq, found], fun number spells => ?_⟩
      obtain ⟨digits, same, _⟩ := spells_name_digits _ _ _ _ spells
      rw [found] at same
      cases same
  | some digits =>
      refine .inr ⟨digitsValue digits, spells_digits _ _ _ digits found, ?_⟩
      simp only [parseSeq, found, stoull, parseUnsigned]
      split <;> rfl

theorem parse_vlog_gen_spec (name : Bytes) : (parseVlogGen name = .ok none ∧ ∀ number, ¬ VlogNumber name number) ∨
    ∃ number, VlogNumber name number ∧
      parseVlogGen name = if number < 2 ^ 64 then .ok (some (UInt32.ofNat number)) else .error
      (.outOfRange "stoul") := by
  cases found : nameDigits vlogFront vlogBack name with
  | none =>
      refine .inl ⟨by rw [parseVlogGen, found], fun number spells => ?_⟩
      obtain ⟨digits, same, _⟩ := spells_name_digits _ _ _ _ spells
      rw [found] at same
      cases same
  | some digits =>
      refine .inr ⟨digitsValue digits, spells_digits _ _ _ digits found, ?_⟩
      simp only [parseVlogGen, found, stoul, parseUnsigned]
      split <;> rfl

theorem not_both_numbers (name : Bytes) (m n : Nat) (table : SstNumber name m) (log : VlogNumber name n) : False := by
  obtain ⟨_, first, _⟩ := table
  obtain ⟨_, second, _⟩ := log
  rw [first] at second
  exact absurd (List.cons.inj second).1 (by decide)

theorem seq_number (name : Bytes) (seq : Nat) (parsed : parseSeq name = .ok (some seq)) : SstNumber name seq := by
  rcases parse_seq_spec name with ⟨none, _⟩ | ⟨number, spells, parses⟩
  · rw [none] at parsed
    cases parsed
  · rw [parses] at parsed
    split at parsed
    · cases parsed
      exact spells
    · cases parsed

theorem gen_number (name : Bytes) (gen : UInt32) (parsed : parseVlogGen name = .ok (some gen)) :
    ∃ number, VlogNumber name number ∧ gen = UInt32.ofNat number := by
  rcases parse_vlog_gen_spec name with ⟨none, _⟩ | ⟨number, spells, parses⟩
  · rw [none] at parsed
    cases parsed
  · rw [parses] at parsed
    split at parsed
    · cases parsed
      exact ⟨number, spells, rfl⟩
    · cases parsed

section Fits

variable (name : Bytes) (fits : NumberFits name)

include fits in
theorem fits_seq : ∃ seq, parseSeq name = .ok seq := by
  rcases parse_seq_spec name with ⟨parsed, _⟩ | ⟨number, spells, parsed⟩
  · exact ⟨none, parsed⟩
  · exact ⟨some number, by rw [parsed, if_pos (fits.1 number spells)]⟩

include fits in
theorem fits_gen : ∃ gen, parseVlogGen name = .ok gen := by
  rcases parse_vlog_gen_spec name with ⟨parsed, _⟩ | ⟨number, spells, parsed⟩
  · exact ⟨none, parsed⟩
  · exact ⟨some _, by rw [parsed, if_pos (lt_trans (fits.2 number spells) (by decide))]⟩

include fits in
theorem fits_denoted (gen : UInt32) (parsed : parseVlogGen name = .ok (some gen)) : VlogNumber name gen.toNat := by
  obtain ⟨number, spells, rfl⟩ := gen_number name gen parsed
  rwa [UInt32.toNat_ofNat_of_lt' (fits.2 number spells)]

include fits in
theorem fits_classified : Classified name := by
  intro live gen
  obtain ⟨seq, parsedSeq⟩ := fits_seq name fits
  obtain ⟨found, parsedGen⟩ := fits_gen name fits
  rw [isOrphan, parsedSeq, parsedGen]
  split
  · exact ⟨true, rfl⟩
  · cases seq with
    | some _ => exact ⟨_, rfl⟩
    | none => cases found <;> exact ⟨_, rfl⟩

include fits in
theorem rejected_ignored
    (rejected : (∀ seq, parseSeq name ≠ .ok (some seq)) ∧ ∀ gen, parseVlogGen name ≠ .ok (some gen)) :
    parseSeq name = .ok none ∧ parseVlogGen name = .ok none := by
  obtain ⟨seq, parsedSeq⟩ := fits_seq name fits
  obtain ⟨gen, parsedGen⟩ := fits_gen name fits
  cases seq with
  | some found => exact absurd parsedSeq (rejected.1 found)
  | none =>
      cases gen with
      | some found => exact absurd parsedGen (rejected.2 found)
      | none => exact ⟨parsedSeq, parsedGen⟩

end Fits

theorem open_tables_agree (disk later : Disk Bytes) (id : Nat) (entries : List ManifestEntry)
    (agree : ∀ entry ∈ entries, later entry.name = disk entry.name) :
    openTables later id entries = openTables disk id entries := by
  induction entries generalizing id with
  | nil => rfl
  | cons entry rest ih =>
      obtain ⟨here, there⟩ := List.forall_mem_cons.mp agree
      rw [openTables, openTables, openFile, openFile, fileData, fileData, here, ih (id + 1) there]

section Strays

variable (disk : Disk Bytes) (name : Bytes)

theorem unlink_file (other : Bytes) (different : other ≠ name) : (FsOp.unlink name).apply disk other = disk other :=
  set_other disk name other none different

theorem unlink_data (other : Bytes) (different : other ≠ name) :
    fileData ((FsOp.unlink name).apply disk) other = fileData disk other := by
  rw [fileData, unlink_file disk name other different, fileData]

theorem find_sstables_filter (names : List Bytes) (ignored : parseSeq name = .ok none) :
    findSstables (names.filter (fun other => other ≠ name)) = findSstables names := by
  induction names with
  | nil => rfl
  | cons other rest ih =>
      by_cases same : other = name
      · subst same
        rw [List.filter_cons_of_neg (by simp), ih, findSstables, ignored]
        split
        · rfl
        · cases findSstables rest <;> rfl
      · rw [List.filter_cons_of_pos (by simpa using same), findSstables, findSstables, ih]

theorem find_vlogs_filter (names : List Bytes) (ignored : parseVlogGen name = .ok none) :
    findVlogs ((FsOp.unlink name).apply disk) (names.filter (fun other => other ≠ name)) = findVlogs disk names := by
  induction names with
  | nil => rfl
  | cons other rest ih =>
      by_cases same : other = name
      · subst same
        rw [List.filter_cons_of_neg (by simp), ih, findVlogs, ignored]
        rfl
      · rw [List.filter_cons_of_pos (by simpa using same), findVlogs, findVlogs, ih, unlink_data disk name other same]

theorem load_vlogs_filter (names : List Bytes) (ignored : parseVlogGen name = .ok none) :
    loadVlogs (names.filter (fun other => other ≠ name)) ((FsOp.unlink name).apply disk) = loadVlogs names disk := by
  have different : vlogName 0 ≠ name := by
    rintro rfl
    rw [parse_vlog_gen_vlog_name] at ignored
    cases ignored
  rw [loadVlogs, loadVlogs, find_vlogs_filter disk name names ignored, unlink_data disk name _ different]

theorem load_directory_filter (names : List Bytes) (loaded : DB) (ops : List DiskOp) (noSeq : parseSeq name = .ok none)
    (noGen : parseVlogGen name = .ok none)
    (done : loadDirectory (names.filter (fun other => other ≠ name)) ((FsOp.unlink name).apply disk) =
      .ok (loaded, ops)) :
    ∃ more, loadDirectory names disk = .ok (loaded, more) := by
  obtain ⟨found, tables, logs, created, finds, opens, vlogs, rfl, rfl⟩ := load_directory_returns _ _ loaded ops done
  rw [find_sstables_filter name names noSeq] at finds
  rw [load_vlogs_filter disk name names noGen] at vlogs
  rw [open_tables_agree disk] at opens
  · refine ⟨(names.filter isTmp).map FsOp.unlink ++ created, ?_⟩
    simp only [loadDirectory, loadSstables, finds, opens, vlogs, bind, Except.bind, pure, Except.pure]
  · intro entry member
    refine unlink_file disk name entry.name ?_
    rintro rfl
    obtain ⟨⟨seq, file⟩, inside, same⟩ := List.mem_map.mp member
    have parsed := (find_sstables_spec names found finds).2.1 (seq, file) ((List.mem_insertionSort _).mp inside)
    rw [← same, parsed] at noSeq
    cases noSeq

theorem load_manifest_filter (names : List Bytes) (m : ManifestData) (loaded : DB) (ops : List DiskOp)
    (classified : Classified name) (unlisted : name ∉ m.tables.map ManifestEntry.name)
    (other : name ≠ vlogName m.currentGen)
    (done : loadManifest (names.filter (fun other => other ≠ name)) ((FsOp.unlink name).apply disk) m =
      .ok (loaded, ops)) :
    ∃ more, loadManifest names disk m = .ok (loaded, more) := by
  obtain ⟨tables, log, orphans, opens, opened, swept, rfl, rfl⟩ := load_manifest_returns _ _ m loaded ops done
  rw [unlink_data disk name _ other.symm] at opened
  rw [open_tables_agree disk] at opens
  · have known : ∀ entry ∈ names, Classified entry := by
      intro entry member
      by_cases same : entry = name
      · rwa [same]
      · exact cleanup_classified _ _ _ orphans swept entry (List.mem_filter.mpr ⟨member, by simpa using same⟩)
    obtain ⟨all, cleaned⟩ := cleanup_total (m.tables.map ManifestEntry.name) m.currentGen names known
    refine ⟨.create (vlogName m.currentGen) :: all, ?_⟩
    simp only [loadManifest, opens, opened, cleaned, bind, Except.bind, pure, Except.pure]
  · intro entry member
    exact unlink_file disk name entry.name (fun same => unlisted (same ▸ List.mem_map_of_mem member))

theorem stray_opens (cfg : Config) (names : List Bytes) (fits : NumberFits name) (stray : Stray disk name) (db : DB)
    (ops : List DiskOp)
    (done : openDB cfg (names.filter (fun other => other ≠ name)) ((FsOp.unlink name).apply disk) = .ok (db, ops)) :
    ∃ more, openDB cfg names disk = .ok (db, more) := by
  obtain ⟨man, loaded, loadOps, flushOps, reads, loads, finished, _⟩ := open_parts _ _ _ db ops done
  obtain ⟨notWal, notFlushing, notManifest⟩ := stray.fixed
  rw [unlink_data disk name _ notManifest.symm] at reads
  simp only [replayedWrites, replayFile, unlink_data disk name _ notWal.symm, unlink_data disk name _ notFlushing.symm,
    unlink_file disk name _ notFlushing.symm] at finished
  rcases loads with ⟨m, rfl, loads⟩ | ⟨rfl, loads⟩
  · obtain ⟨unlisted, other⟩ := stray.listed m reads
    obtain ⟨more, loads⟩ :=
      load_manifest_filter disk name names m loaded loadOps (fits_classified name fits) unlisted other loads
    simp only [openDB, reads, loads, replayFile, finished, bind, Except.bind, pure, Except.pure]
    exact ⟨_, rfl⟩
  · obtain ⟨noSeq, noGen⟩ := rejected_ignored name fits (stray.rejected reads)
    obtain ⟨more, loads⟩ := load_directory_filter disk name names loaded loadOps noSeq noGen loads
    simp only [openDB, reads, loads, replayFile, finished, bind, Except.bind, pure, Except.pure]
    exact ⟨_, rfl⟩

end Strays

theorem fits_distinct (names : List Bytes) (fits : ∀ name ∈ names, NumberFits name) (disk : Disk Bytes)
    (logs : List ValueLog) (ops : List DiskOp) (loads : loadVlogs names disk = .ok (logs, ops)) (left right : ValueLog)
    (inLeft : left ∈ logs) (inRight : right ∈ logs) (m n : Nat) (spellsLeft : VlogNumber left.name m)
    (spellsRight : VlogNumber right.name n) (different : m ≠ n) : left.gen ≠ right.gen := by
  intro same
  obtain ⟨found, finds, loads⟩ := bind_returns _ _ _ loads
  split at loads
  · obtain ⟨log, _, loads⟩ := bind_returns _ _ _ loads
    cases loads
    rw [List.mem_singleton.mp inLeft] at spellsLeft
    rw [List.mem_singleton.mp inRight] at spellsRight
    exact different (spells_unique _ _ _ _ _ spellsLeft spellsRight)
  · cases loads
    obtain ⟨_, listedLeft, parsedLeft, _⟩ := find_vlogs_spec disk names logs finds left inLeft
    obtain ⟨_, listedRight, parsedRight, _⟩ := find_vlogs_spec disk names logs finds right inRight
    have genLeft := spells_unique _ _ _ _ _ spellsLeft (fits_denoted left.name (fits _ listedLeft) left.gen parsedLeft)
    have genRight :=
      spells_unique _ _ _ _ _ spellsRight (fits_denoted right.name (fits _ listedRight) right.gen parsedRight)
    exact different (by rw [genLeft, genRight, same])

-- Names are told apart exactly when the numbers in them fit.
theorem names_classified (names : List Bytes) : Classifies names ↔ ∀ name ∈ names, NumberFits name := by
  refine ⟨fun classifies name member => ⟨fun number spells => ?_, fun number spells => ?_⟩, fun fits => ?_⟩
  · obtain ⟨seq, parsed⟩ := classifies.seq name member
    rcases parse_seq_spec name with ⟨_, never⟩ | ⟨other, spellsOther, parses⟩
    · exact absurd spells (never number)
    · rw [spells_unique _ _ _ _ _ spells spellsOther]
      by_contra large
      rw [parses, if_neg large] at parsed
      cases parsed
  · obtain ⟨gen, parsed⟩ := classifies.gen name member
    rcases parse_vlog_gen_spec name with ⟨_, never⟩ | ⟨other, spellsOther, parses⟩
    · exact absurd spells (never number)
    · rw [parses] at parsed
      split at parsed
      · next small =>
          rw [if_pos small] at parses
          have denoted := classifies.denoted name member _ parses
          rw [spells_unique _ _ _ _ _ spells denoted]
          exact UInt32.toNat_lt _
      · cases parsed
  · refine ⟨fun name member => fits_seq name (fits name member), fun name member =>
      fits_gen name (fits name member), ?_,
      fun name member => fits_denoted name (fits name member), ?_, ?_⟩
    · intro name _ seq gen parsedSeq parsedGen
      obtain ⟨number, spells, _⟩ := gen_number name gen parsedGen
      exact not_both_numbers name seq number (seq_number name seq parsedSeq) spells
    · intro disk logs ops loads left inLeft right inRight
      exact fits_distinct names fits disk logs ops loads left right inLeft inRight
    · intro cfg disk name _ member stray db ops done
      exact stray_opens disk name cfg names (fits name member) stray db ops done

-- "sst-18446744073709551616.sst" and "vlog-4294967296.log"
def hugeTable : Bytes := sstFront ++ decimal 20 (2 ^ 64) ++ sstBack
def wrappedLog : Bytes := vlogFront ++ decimal 20 (2 ^ 32) ++ vlogBack

def strayDisk : Disk Bytes := fun name => if name = hugeTable then some (durable []) else none

-- The first name keeps an empty directory from being opened; the second takes
-- the place of generation 0.
theorem large_numbers_break :
    parseSeq hugeTable = .error (.outOfRange "stoull") ∧ Stray strayDisk hugeTable ∧
      (openDB (smallStore 1000 1000) [] ((FsOp.unlink hugeTable).apply strayDisk)).isOk = true ∧
      openDB (smallStore 1000 1000) [hugeTable] strayDisk = .error (.outOfRange "stoull") ∧
      VlogNumber (vlogName 0) 0 ∧ VlogNumber wrappedLog (2 ^ 32) ∧
      (loadVlogs [vlogName 0, wrappedLog] (fun _ => some (durable []))).map
      (fun loaded => loaded.1.map ValueLog.gen) = .ok [0, 0] := by
  have parsed : parseSeq hugeTable = .error (.outOfRange "stoull") := by decide +kernel
  refine ⟨parsed, ⟨by decide +kernel, fun m reads => ?_, fun _ => ⟨fun seq accepted => ?_, fun gen accepted => ?_⟩⟩,
    by decide +kernel, ?_, ?_, ?_, by decide +kernel⟩
  · cases reads
  · rw [parsed] at accepted
    cases accepted
  · have other : parseVlogGen hugeTable = .ok none := by decide +kernel
    rw [other] at accepted
    cases accepted
  · have fails : findSstables [hugeTable] = .error (.outOfRange "stoull") := by decide +kernel
    have blank : manifestRead (fileData strayDisk manifestName) = .ok none := by decide +kernel
    simp only [openDB, blank, loadDirectory, loadSstables, fails, bind, Except.bind]
  · exact ⟨padded 0, rfl, by decide, by decide, by decide⟩
  · exact ⟨decimal 20 (2 ^ 32), rfl, by decide, by decide, by decide⟩

end Tombstash
