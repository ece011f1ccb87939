import Tombstash.Names
import Tombstash.Base.Disk

set_option autoImplicit false

namespace Tombstash

-- "LSMKVMN2"
def kManMagic : Bytes := [0x4c, 0x53, 0x4d, 0x4b, 0x56, 0x4d, 0x4e, 0x32]

structure ManifestEntry where
  name : Bytes
  level : Int
deriving DecidableEq, Repr

structure ManifestData where
  nextSeq : Nat
  currentGen : UInt32
  tables : List ManifestEntry
deriving DecidableEq, Repr

-- static_cast between int32_t and uint32_t
def levelWord (level : Int) : Nat := (level % 2 ^ 32).toNat
def wordLevel (word : Nat) : Int := Int.bmod word (2 ^ 32)

def manifestEntryBytes (entry : ManifestEntry) : Bytes :=
  putU32Le entry.name.length ++ entry.name ++ putU32Le (levelWord entry.level)

def manifestBytes (m : ManifestData) : Bytes :=
  kManMagic ++ putU64Le m.nextSeq ++ putU32Le m.currentGen.toNat ++ putU32Le m.tables.length ++
    (m.tables.map manifestEntryBytes).flatten

-- The file-system steps of manifest_write.
def manifestOps (m : ManifestData) : List (FsOp Bytes) :=
  [.truncate manifestTmpName, .append manifestTmpName (manifestBytes m), .fsync manifestTmpName,
    .rename manifestTmpName manifestName, .fsyncDir]

def truncated : Error := .runtime "manifest: truncated"

def readManifestEntries : Nat → Bytes → Except Error (List ManifestEntry)
  | 0, _ => .ok []
  | count + 1, b =>
      if b.length < 4 then .error truncated
      else
        let len := readU32Le b
        let p := b.drop 4
        if p.length < len then .error truncated
        else
          let name := p.take len
          let p := p.drop len
          if p.length < 4 then .error truncated
          else do
            let rest ← readManifestEntries count (p.drop 4)
            return ⟨name, wordLevel (readU32Le p)⟩ :: rest

-- manifest_read on the contents of MANIFEST, if there is one.
def manifestRead : Option Bytes → Except Error (Option ManifestData)
  | none => .ok none
  | some b =>
      if b.length < 8 then .error truncated
      else if b.take 8 ≠ kManMagic then .ok none
      else
        let p := b.drop 8
        if p.length < 8 then .error truncated
        else
          let nextSeq := readU64Le p
          let p := p.drop 8
          if p.length < 4 then .error truncated
          else
            let currentGen := UInt32.ofNat (readU32Le p)
            let p := p.drop 4
            if p.length < 4 then .error truncated
            else do
              let tables ← readManifestEntries (readU32Le p) (p.drop 4)
              return some ⟨nextSeq, currentGen, tables⟩

-- What the fields of a manifest hold without loss.
structure ManifestData.Fits (m : ManifestData) : Prop where
  nextSeq : m.nextSeq < 2 ^ 64
  count : m.tables.length < 2 ^ 32
  names : ∀ entry ∈ m.tables, entry.name.length < 2 ^ 32
  levels : ∀ entry ∈ m.tables, -2 ^ 31 ≤ entry.level ∧ entry.level < 2 ^ 31

theorem level_word_lt (level : Int) : levelWord level < 2 ^ 32 := by
  have low := Int.emod_nonneg level (by decide : (2 ^ 32 : Int) ≠ 0)
  have high := Int.emod_lt_of_pos level (by decide : (0 : Int) < 2 ^ 32)
  unfold levelWord
  omega

theorem level_word_mod (level : Int) : ((levelWord level : Nat) : Int) = level % 4294967296 := by
  have nonneg := Int.emod_nonneg level (by decide : (4294967296 : Int) ≠ 0)
  unfold levelWord
  omega

theorem word_level_of_mod (word : Nat) (level : Int) (low : -2147483648 ≤ level) (high : level < 2147483648)
    (same : (word : Int) = level % 4294967296) : wordLevel word = level := by
  unfold wordLevel
  rw [Int.bmod_def]
  omega

theorem word_level_word (level : Int) (low : -2 ^ 31 ≤ level) (high : level < 2 ^ 31) :
    wordLevel (levelWord level) = level :=
  word_level_of_mod _ level (by omega) (by omega) (level_word_mod level)

theorem read_manifest_entries_encode (entries : List ManifestEntry)
    (names : ∀ entry ∈ entries, entry.name.length < 2 ^ 32)
    (levels : ∀ entry ∈ entries, -2 ^ 31 ≤ entry.level ∧ entry.level < 2 ^ 31) :
    readManifestEntries entries.length ((entries.map manifestEntryBytes).flatten) = .ok entries := by
  induction entries with
  | nil => rfl
  | cons entry rest ih =>
      have tail :=
        ih (fun other member => names other (by simp [member])) (fun other member => levels other (by simp [member]))
      have nameFits := names entry (by simp)
      obtain ⟨low, high⟩ := levels entry (by simp)
      have head : ((entry :: rest).map manifestEntryBytes).flatten = putU32Le entry.name.length ++ (entry.name ++
          (putU32Le (levelWord entry.level) ++ (rest.map manifestEntryBytes).flatten)) := by
        simp [manifestEntryBytes]
      rw [head, List.length_cons, readManifestEntries, if_neg (by simp), read_put_u32, Nat.mod_eq_of_lt nameFits,
        List.drop_left' (length_put_u32 _), if_neg (by simp), List.take_left' rfl, List.drop_left' rfl,
        if_neg (by simp), read_put_u32, Nat.mod_eq_of_lt (level_word_lt _), List.drop_left' (length_put_u32 _), tail,
        word_level_word _ low high]
      rfl

theorem read_manifest_entries_inside (count : Nat) (b rest : Bytes) (entries : List ManifestEntry)
    (done : readManifestEntries count b = .ok entries) :
    ((entries.map manifestEntryBytes).flatten).length ≤ b.length ∧
    readManifestEntries count (b ++ rest) = .ok entries := by
  induction count generalizing b entries with
  | zero =>
      cases done
      exact ⟨Nat.zero_le _, rfl⟩
  | succ count ih =>
      rw [readManifestEntries] at done
      split at done
      · cases done
      rename_i header
      dsimp only at done
      split at done
      · cases done
      rename_i nameInside
      split at done
      · cases done
      rename_i levelInside
      cases tailDone : readManifestEntries count (((b.drop 4).drop (readU32Le b)).drop 4) with
      | error e =>
          rw [tailDone] at done
          cases done
      | ok tail =>
          rw [tailDone] at done
          cases done
          obtain ⟨tailLength, tailMore⟩ := ih _ tail tailDone
          simp only [List.length_drop] at nameInside levelInside tailLength
          have sameLen : readU32Le (b ++ rest) = readU32Le b := read_u32_append b rest (by omega)
          have afterLen : (b ++ rest).drop 4 = b.drop 4 ++ rest := List.drop_append_of_le_length (by omega)
          have afterName : (b.drop 4 ++ rest).drop (readU32Le b) = (b.drop 4).drop (readU32Le b) ++ rest :=
            List.drop_append_of_le_length (by simp only [List.length_drop]; omega)
          have sameName : (b.drop 4 ++ rest).take (readU32Le b) = (b.drop 4).take (readU32Le b) :=
            List.take_append_of_le_length (by simp only [List.length_drop]; omega)
          have sameLevel : readU32Le ((b.drop 4).drop (readU32Le b) ++ rest) = readU32Le
            ((b.drop 4).drop (readU32Le b)) :=
            read_u32_append _ rest (by simp only [List.length_drop]; omega)
          have afterLevel : ((b.drop 4).drop (readU32Le b) ++ rest).drop 4 =
              ((b.drop 4).drop (readU32Le b)).drop 4 ++ rest :=
            List.drop_append_of_le_length (by simp only [List.length_drop]; omega)
          constructor
          · simp only [List.map_cons, List.flatten_cons, List.length_append, manifestEntryBytes, length_put_u32,
              List.length_take, List.length_drop]
            omega
          · rw [readManifestEntries, if_neg (by rw [List.length_append]; omega), sameLen, afterLen]
            dsimp only
            rw [if_neg (by simp only [List.length_append, List.length_drop]; omega), afterName, sameName,
              if_neg (by simp only [List.length_append, List.length_drop]; omega), sameLevel, afterLevel, tailMore]
            rfl

theorem read_manifest_entries_error (count : Nat) (b : Bytes) (e : Error)
    (failed : readManifestEntries count b = .error e) : e = truncated := by
  induction count generalizing b with
  | zero => cases failed
  | succ count ih =>
      rw [readManifestEntries] at failed
      split at failed
      · cases failed
        rfl
      dsimp only at failed
      split at failed
      · cases failed
        rfl
      split at failed
      · cases failed
        rfl
      cases tailDone : readManifestEntries count (((b.drop 4).drop (readU32Le b)).drop 4) with
      | error inner =>
          rw [tailDone] at failed
          cases failed
          exact ih _ tailDone
      | ok tail =>
          rw [tailDone] at failed
          cases failed

theorem read_manifest_entries_torn (entries : List ManifestEntry) (b rest : Bytes)
    (names : ∀ entry ∈ entries, entry.name.length < 2 ^ 32)
    (levels : ∀ entry ∈ entries, -2 ^ 31 ≤ entry.level ∧ entry.level < 2 ^ 31)
    (cut : (entries.map manifestEntryBytes).flatten = b ++ rest) (strict : rest ≠ []) :
    readManifestEntries entries.length b = .error truncated := by
  cases read : readManifestEntries entries.length b with
  | error e => rw [read_manifest_entries_error _ b e read]
  | ok other =>
      obtain ⟨inside, more⟩ := read_manifest_entries_inside entries.length b rest other read
      have whole := read_manifest_entries_encode entries names levels
      rw [cut, more] at whole
      cases whole
      rw [cut, List.length_append] at inside
      have empty : rest.length = 0 := by omega
      exact absurd (List.eq_nil_of_length_eq_zero empty) strict

theorem manifest_round_trip (m : ManifestData) (fits : m.Fits) :
    manifestRead (some (manifestBytes m)) = .ok (some m) := by
  have shape : manifestBytes m = kManMagic ++ (putU64Le m.nextSeq ++ (putU32Le m.currentGen.toNat ++
      (putU32Le m.tables.length ++ (m.tables.map manifestEntryBytes).flatten))) := by simp [manifestBytes]
  have magic : kManMagic.length = 8 := rfl
  have entries := read_manifest_entries_encode m.tables fits.names fits.levels
  rw [shape, manifestRead, if_neg (by simp [magic]), List.take_left' magic, if_neg (by simp),
    List.drop_left' magic, if_neg (by simp), read_put_u64, Nat.mod_eq_of_lt fits.nextSeq,
    List.drop_left' (length_put_u64 _), if_neg (by simp), read_put_u32, Nat.mod_eq_of_lt m.currentGen.toNat_lt,
    List.drop_left' (length_put_u32 _), if_neg (by simp), read_put_u32, Nat.mod_eq_of_lt fits.count,
    List.drop_left' (length_put_u32 _), entries, UInt32.ofNat_toNat]
  rfl

-- What a MANIFEST keeps of levels that int32_t cannot hold.
def ManifestData.stored (m : ManifestData) : ManifestData :=
  { m with tables := m.tables.map (fun entry => ⟨entry.name, wordLevel (levelWord entry.level)⟩) }

theorem word_level_bounds (word : Nat) : -2 ^ 31 ≤ wordLevel word ∧ wordLevel word < 2 ^ 31 := by
  unfold wordLevel
  rw [Int.bmod_def]
  omega

theorem level_word_stored (level : Int) : levelWord (wordLevel (levelWord level)) = levelWord level := by
  have first := level_word_mod level
  have second := level_word_mod (wordLevel (levelWord level))
  unfold wordLevel at second ⊢
  rw [Int.bmod_def] at second ⊢
  omega

theorem manifest_read_stored (m : ManifestData) (nextSeq : m.nextSeq < 2 ^ 64) (count : m.tables.length < 2 ^ 32)
    (names : ∀ entry ∈ m.tables, entry.name.length < 2 ^ 32) :
    manifestRead (some (manifestBytes m)) = .ok (some m.stored) := by
  have entries : ∀ entry : ManifestEntry, manifestEntryBytes ⟨entry.name, wordLevel (levelWord entry.level)⟩ =
      manifestEntryBytes entry := fun entry => by
    rw [manifestEntryBytes, level_word_stored, manifestEntryBytes]
  have same : manifestBytes m = manifestBytes m.stored := by
    simp [manifestBytes, ManifestData.stored, Function.comp_def, entries]
  rw [same]
  refine manifest_round_trip m.stored ⟨nextSeq, by simpa [ManifestData.stored] using count, ?_, ?_⟩
  · simpa [ManifestData.stored] using names
  · intro entry member
    obtain ⟨original, _, same⟩ := List.mem_map.mp member
    subst same
    dsimp only
    exact word_level_bounds (levelWord original.level)

-- Each field of the header that is cut fails its own need(); past the header the
-- entries ask for more than is left.
theorem manifest_torn (m : ManifestData) (fits : m.Fits) (b rest : Bytes) (cut : manifestBytes m = b ++ rest)
    (strict : rest ≠ []) : manifestRead (some b) = .error truncated := by
  have front : b = (manifestBytes m).take b.length := by rw [cut, List.take_left]
  have shape : manifestBytes m = kManMagic ++ (putU64Le m.nextSeq ++ (putU32Le m.currentGen.toNat ++
      (putU32Le m.tables.length ++ (m.tables.map manifestEntryBytes).flatten))) := by simp [manifestBytes]
  have magic : kManMagic.length = 8 := rfl
  rw [manifestRead]
  by_cases noMagic : b.length < 8
  · rw [if_pos noMagic]
  have takeMagic : b.take 8 = kManMagic := by
    rw [front, List.take_take, Nat.min_eq_left (by omega), shape, List.take_left' magic]
  have afterMagic : b.drop 8 = (putU64Le m.nextSeq ++ (putU32Le m.currentGen.toNat ++
      (putU32Le m.tables.length ++ (m.tables.map manifestEntryBytes).flatten))).take (b.length - 8) := by
    conv_lhs => rw [front]
    rw [List.drop_take, shape, List.drop_left' magic]
  rw [if_neg noMagic, if_neg (by simp [takeMagic])]
  dsimp only
  by_cases noSeq : (b.drop 8).length < 8
  · rw [if_pos noSeq]
  rw [if_neg noSeq]
  by_cases noGen : ((b.drop 8).drop 8).length < 4
  · rw [if_pos noGen]
  rw [if_neg noGen]
  by_cases noCount : (((b.drop 8).drop 8).drop 4).length < 4
  · rw [if_pos noCount]
  rw [if_neg noCount]
  simp only [List.length_drop] at noSeq noGen noCount
  have afterGen : ((b.drop 8).drop 8).drop 4 =
      (putU32Le m.tables.length ++ (m.tables.map manifestEntryBytes).flatten).take (b.length - 20) := by
    rw [afterMagic, List.drop_take, List.drop_left' (length_put_u64 _), List.drop_take,
      List.drop_left' (length_put_u32 _)]
    congr 1
  have count : readU32Le (((b.drop 8).drop 8).drop 4) = m.tables.length := by
    rw [afterGen, readU32Le, List.take_take, Nat.min_eq_left (by omega)]
    exact (read_put_u32 _ _).trans (Nat.mod_eq_of_lt fits.count)
  have entries : (m.tables.map manifestEntryBytes).flatten = (((b.drop 8).drop 8).drop 4).drop 4 ++ rest := by
    have whole := congrArg (fun bytes => (((bytes.drop 8).drop 8).drop 4).drop 4) cut
    simp only [shape, List.drop_left' magic, List.drop_left' (length_put_u64 _),
      List.drop_left' (length_put_u32 _)] at whole
    rw [whole, List.drop_append_of_le_length (by omega), List.drop_append_of_le_length (by simp; omega),
      List.drop_append_of_le_length (by simp; omega), List.drop_append_of_le_length (by simp; omega)]
  rw [count, read_manifest_entries_torn m.tables _ rest fits.names fits.levels entries strict]
  rfl

theorem manifest_codec_exact (m : ManifestData) (fits : m.Fits) :
    manifestRead (some (manifestBytes m)) = .ok (some m) ∧
      ∀ b rest, manifestBytes m = b ++ rest → rest ≠ [] → manifestRead (some b) = .error truncated :=
  ⟨manifest_round_trip m fits, fun b rest cut strict => manifest_torn m fits b rest cut strict⟩

def signedLevels : ManifestData := ⟨7, 2, [⟨[0x61], -1⟩, ⟨[], 3⟩]⟩

theorem signed_levels_exact :
    manifestRead (some (manifestBytes signedLevels)) = .ok (some signedLevels) ∧
      manifestRead (some ((manifestBytes signedLevels).take 30)) = .error truncated := by
  obtain ⟨whole, cuts⟩ := manifest_codec_exact signedLevels ⟨by decide, by decide, by decide, by decide⟩
  exact ⟨whole, cuts _ ((manifestBytes signedLevels).drop 30) (List.take_append_drop _ _).symm (by decide +kernel)⟩

end Tombstash
