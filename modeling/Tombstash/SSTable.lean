import Tombstash.BloomFilter

set_option autoImplicit false

namespace Tombstash

def kFooterSize : Nat := 40
def kBlockSize : Nat := 4096
def kMagic : Bytes := [0x4c, 0x53, 0x4d, 0x4b, 0x56, 0x53, 0x53, 0x54]
def kSeparatedFlag : UInt8 := 0x80

-- File offsets are off_t: no read, write or file reaches 2^63.
def offMax : Nat := 2 ^ 63

def appendRecord (rec : Record) : Bytes :=
  if rec.separated then
    [rec.op.code ||| kSeparatedFlag] ++ putU32Le rec.key.length ++ rec.key ++ putU32Le rec.vptr.len.toNat ++
      putU32Le rec.vptr.gen.toNat ++ putU64Le rec.vptr.offset.toNat
  else [rec.op.code] ++ putU32Le rec.key.length ++ rec.key ++ putU32Le rec.value.length ++ rec.value

-- parse_one from the bytes at p on; the rest is the block from the returned position on.
def parseOne (b : Bytes) : Except Error (Record × Bytes) :=
  if b.length < 1 + 4 then .error (.runtime "SSTable: short record header")
  else
    let op := b.headD 0
    let separated := (op &&& kSeparatedFlag) != 0
    let code : Op := ⟨op &&& 0x7f⟩
    let p := b.drop 1
    let klen := readU32Le p
    let p := p.drop 4
    if p.length < klen + 4 then .error (.runtime "SSTable: bad key length")
    else
      let key := p.take klen
      let p := p.drop klen
      let vlen := readU32Le p
      let p := p.drop 4
      if separated then
        if p.length < 12 then .error (.runtime "SSTable: bad value pointer")
        else
          let gen := UInt32.ofNat (readU32Le p)
          let p := p.drop 4
          let offset := UInt64.ofNat (readU64Le p)
          .ok (⟨code, key, [], true, ⟨gen, offset, UInt32.ofNat vlen⟩⟩, p.drop 8)
      else if p.length < vlen then .error (.runtime "SSTable: bad value length")
      else .ok (⟨code, key, p.take vlen, false, {}⟩, p.drop vlen)

structure BuildState where
  data : Bytes
  index : Bytes
  numRecords : Nat
  blockStart : Nat
  firstKey : Bytes
  blockOpen : Bool
  bloom : BloomFilter

def closeBlock (fkey : Bytes) (start stop : Nat) : Bytes :=
  putU32Le fkey.length ++ fkey ++ putU64Le start ++ putU64Le (stop - start)

def buildRecord (state : BuildState) (rec : Record) : Except Error BuildState :=
  if rec.key.length > uint32Max ∨ rec.value.length > uint32Max then
    .error (.length "SSTable record field exceeds 4 GiB")
  else
    let blockStart := if state.blockOpen then state.blockStart else state.data.length
    let firstKey := if state.blockOpen then state.firstKey else rec.key
    let data := state.data ++ appendRecord rec
    let bloom := state.bloom.add rec.key
    if data.length - blockStart ≥ kBlockSize then
      .ok ⟨data, state.index ++ closeBlock firstKey blockStart data.length, state.numRecords + 1, blockStart, firstKey,
        false, bloom⟩
    else .ok ⟨data, state.index, state.numRecords + 1, blockStart, firstKey, true, bloom⟩

def buildStart (sizing : Nat → BloomSize) (sorted : List Record) : BuildState :=
  ⟨[], [], 0, 0, [], false, BloomFilter.sized (sizing (if sorted.isEmpty then 1 else sorted.length))⟩

def footerBytes (dataSize indexSize bloomSize numRecords : Nat) : Bytes :=
  putU64Le dataSize ++ putU64Le indexSize ++ putU64Le bloomSize ++ putU64Le numRecords ++ kMagic

def finishIndex (state : BuildState) : Bytes :=
  if state.blockOpen then state.index ++ closeBlock state.firstKey state.blockStart state.data.length else state.index

def assemble (state : BuildState) : Bytes :=
  state.data ++ finishIndex state ++ state.bloom.serialize ++
    footerBytes state.data.length (finishIndex state).length state.bloom.serialize.length state.numRecords

-- The bytes SSTable::build writes and fsyncs at its path.
def buildTable (sizing : Nat → BloomSize) (sorted : List Record) : Except Error Bytes := do
  let state ← sorted.foldlM buildRecord (buildStart sizing sorted)
  if (assemble state).length ≥ offMax then .error (.system "SSTable write") else .ok (assemble state)

structure IndexEntry where
  firstKey : Bytes
  offset : Nat
  length : Nat
deriving DecidableEq, Repr

-- An opened table: file is what the descriptor reads.
structure SSTable where
  file : Bytes
  dataSize : Nat
  fileSize : Nat
  numRecords : Nat
  minKey : Bytes
  maxKey : Bytes
  index : List IndexEntry
  bloom : BloomFilter
deriving DecidableEq, Repr

-- pread_exact of sstable.cpp and of vlog.cpp, which differ in their texts. A
-- read of no bytes never reaches the file.
def preadRange (eof : String) (file : Bytes) (offset len : Nat) : Except Error Bytes :=
  if len = 0 then .ok []
  else if offset ≥ offMax ∨ offset + len > file.length then .error (.runtime eof)
  else .ok (slice file offset len)

def preadExact (file : Bytes) (offset len : Nat) : Except Error Bytes :=
  preadRange "SSTable pread: unexpected EOF" file offset len

def parseIndex : Nat → Bytes → Except Error (List IndexEntry)
  | 0, _ => .ok []
  | fuel + 1, idx =>
      if idx.isEmpty then .ok []
      else if idx.length < 4 then .error (.runtime "SSTable: torn index")
      else
        let klen := readU32Le idx
        let p := idx.drop 4
        if p.length < klen + 16 then .error (.runtime "SSTable: torn index")
        else do
          let key := p.take klen
          let p := p.drop klen
          let rest ← parseIndex fuel (p.drop 16)
          return ⟨key, readU64Le p, readU64Le (p.drop 8)⟩ :: rest

def parseRecords : Nat → Bytes → Except Error (List Record)
  | 0, _ => .ok []
  | fuel + 1, bytes =>
      if bytes.isEmpty then .ok []
      else do
        let (rec, rest) ← parseOne bytes
        let others ← parseRecords fuel rest
        return rec :: others

def readBlock (file : Bytes) (entry : IndexEntry) : Except Error (List Record) := do
  let bytes ← preadExact file entry.offset entry.length
  parseRecords bytes.length bytes

-- min_key_ and max_key_ as the constructor caches them.
def keyRange (file : Bytes) (index : List IndexEntry) : Except Error (Bytes × Bytes) :=
  match index.head?, index.getLast? with
  | some first, some last => do
      let recs ← readBlock file last
      return (first.firstKey, ((recs.getLast?).map Record.key).getD [])
  | _, _ => .ok ([], [])

-- The sizes of the footer are added as 64-bit words before they are compared
-- with the file size.
def openTable (file : Bytes) : Except Error SSTable :=
  if file.length < kFooterSize then .error (.runtime "SSTable: file smaller than footer: ")
  else do
    let footer ← preadExact file (file.length - kFooterSize) kFooterSize
    if footer.drop 32 ≠ kMagic then .error (.runtime "SSTable: bad magic: ")
    else
      let dataSize := readU64Le footer
      let indexSize := readU64Le (footer.drop 8)
      let bloomSize := readU64Le (footer.drop 16)
      let numRecords := readU64Le (footer.drop 24)
      if (dataSize + indexSize + bloomSize + kFooterSize) % 2 ^ 64 ≠ file.length then
        .error (.runtime "SSTable: block sizes disagree with file: ")
      else do
        let idx ← preadExact file dataSize indexSize
        let index ← parseIndex idx.length idx
        let range ← keyRange file index
        let bloomBytes ← preadExact file ((dataSize + indexSize) % 2 ^ 64) bloomSize
        let bloom ← BloomFilter.deserialize bloomBytes
        return ⟨file, dataSize, file.length, numRecords, range.1, range.2, index, bloom⟩

def SSTable.readBlockRecords (table : SSTable) (i : Nat) : Except Error (List Record) :=
  match table.index[i]? with
  | none => .error (.outOfRange "index_")
  | some entry => readBlock table.file entry

def SSTable.mayContain (table : SSTable) (key : Bytes) : Bool := table.bloom.maybeContains key

-- std::upper_bound over the index: the number of blocks whose first key is <= key.
def SSTable.upperBound (table : SSTable) (key : Bytes) : Nat :=
  (table.index.takeWhile (fun entry => !decide (key < entry.firstKey))).length

def scanBlock (key : Bytes) : List Record → Option Record
  | [] => none
  | rec :: rest => if rec.key = key then some rec else if key < rec.key then none else scanBlock key rest

def SSTable.getNoBloom (table : SSTable) (key : Bytes) : Except Error (Option Record) :=
  if table.index.isEmpty then .ok none
  else
    let it := table.upperBound key
    if it = 0 then .ok none
    else do
      let recs ← table.readBlockRecords (it - 1)
      return scanBlock key recs

def SSTable.get (table : SSTable) (key : Bytes) : Except Error (Option Record) :=
  if table.mayContain key then table.getNoBloom key else .ok none

-- The inner loop of range: keep what lies in the window; true when a key
-- at or past stop ends the whole scan.
def rangeBlock (start stop : Bytes) : List Record → List Record × Bool
  | [] => ([], false)
  | rec :: rest =>
      if rec.key < start then rangeBlock start stop rest
      else if ¬ rec.key < stop then ([], true)
      else (rec :: (rangeBlock start stop rest).1, (rangeBlock start stop rest).2)

def SSTable.rangeFrom (table : SSTable) (start stop : Bytes) : Nat → Nat → Except Error (List Record)
  | 0, _ => .ok []
  | fuel + 1, i =>
      match table.index[i]? with
      | none => .ok []
      | some entry =>
          if ¬ entry.firstKey < stop then .ok []
          else do
            let recs ← table.readBlockRecords i
            let (kept, done) := rangeBlock start stop recs
            if done then return kept
            else do
              let rest ← table.rangeFrom start stop fuel (i + 1)
              return kept ++ rest

def SSTable.range (table : SSTable) (start stop : Bytes) : Except Error (List Record) :=
  if table.index.isEmpty ∨ ¬ start < stop then .ok []
  else table.rangeFrom start stop table.index.length (table.upperBound start - 1)

structure Iterator where
  sst : SSTable
  blockIdx : Nat
  block : List Record
  pos : Nat
deriving DecidableEq, Repr

def Iterator.loadBlock (sst : SSTable) (i : Nat) : Except Error Iterator := do
  let block ← sst.readBlockRecords i
  return ⟨sst, i, block, 0⟩

def SSTable.iterator (table : SSTable) : Except Error Iterator :=
  if table.index.isEmpty then .ok ⟨table, 0, [], 0⟩ else Iterator.loadBlock table 0

def Iterator.valid (it : Iterator) :
    Bool := decide (it.blockIdx < it.sst.index.length) && decide (it.pos < it.block.length)

-- record() where the iterator is valid.
def Iterator.head (it : Iterator) : Option Record := if it.valid then it.block[it.pos]? else none

def Iterator.next (it : Iterator) : Except Error Iterator :=
  if it.pos + 1 ≥ it.block.length then
    if it.blockIdx + 1 < it.sst.index.length then Iterator.loadBlock it.sst (it.blockIdx + 1)
    else .ok { it with pos := it.pos + 1, blockIdx := it.sst.index.length }
  else .ok { it with pos := it.pos + 1 }

end Tombstash
