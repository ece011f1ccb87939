import Tombstash.DB

set_option autoImplicit false

namespace Tombstash

def intMax : Int := 2 ^ 31 - 1

-- static_cast<int> of a size_t
def castInt (n : Nat) : Int := Int.bmod n (2 ^ 32)

def atLevel (tables : List Table) (level : Int) :
    List Table := tables.filter (fun table => decide (table.level = level))

def maxLevel (tables : List Table) : Int := tables.foldl (fun top table => max top table.level) 0

def levelBytes (tables : List Table) (level : Int) : Nat :=
  ((atLevel tables level).map (fun table => table.sst.fileSize)).sum % 2 ^ 64

def overBudget (cfg : Config) (tables : List Table) (level : Int) : Bool :=
  decide (levelBytes tables level > cfg.levelBudget level)

def leveledPending (cfg : Config) (tables : List Table) : Bool :=
  decide (castInt (atLevel tables 0).length ≥ castInt cfg.minMerge) ||
    tables.any (fun table => decide (table.level ≠ 0) && overBudget cfg tables table.level)

def sourceLevel (cfg : Config) (tables : List Table) : Option Int :=
  if castInt (atLevel tables 0).length ≥ castInt cfg.minMerge then some 0
  else ((List.range' 1 (maxLevel tables).toNat).map (fun n : Nat => (n : Int))).find? (overBudget cfg tables)

-- std::min_element by min_key
def minTable (first : Table) (rest : List Table) : Table :=
  rest.foldl (fun least table => if table.sst.minKey < least.sst.minKey then table else least) first

-- None where the source would be empty, which the code does not check for.
def sourceTables (tables : List Table) (level : Int) : Option (Table × List Table) :=
  match atLevel tables level with
  | [] => none
  | first :: rest => if level = 0 then some (first, rest) else some (minTable first rest, [])

def lowKey (first : Table) (rest : List Table) : Bytes :=
  (first :: rest).foldl (fun lo table => if table.sst.minKey < lo then table.sst.minKey else lo) first.sst.minKey

def highKey (first : Table) (rest : List Table) : Bytes :=
  (first :: rest).foldl (fun hi table => if hi < table.sst.maxKey then table.sst.maxKey else hi) first.sst.maxKey

def overlaps (lo hi : Bytes) (table : Table) :
    Bool := !(decide (table.sst.maxKey < lo) || decide (hi < table.sst.minKey))

structure LeveledPick where
  inputs : List Table
  destLevel : Int
  dropTombstones : Bool

-- The locked part of do_leveled_compaction. A level that cannot be
-- incremented as an int is undefined in the source and picks nothing here.
def pickLeveled (cfg : Config) (tables : List Table) : Option LeveledPick :=
  if leveledPending cfg tables then
    match sourceLevel cfg tables with
    | none => none
    | some source =>
        match sourceTables tables source with
        | none => none
        | some (first, rest) =>
            if source ≥ intMax then none
            else
              let lo := lowKey first rest
              let hi := highKey first rest
              some
                { inputs := first :: rest ++ (atLevel tables (source + 1)).filter (overlaps lo hi)
                  destLevel := source + 1
                  dropTombstones := decide (source + 1 ≥ maxLevel tables) }
  else none

def groupBytes (rec : Record) : Nat := 1 + 4 + rec.key.length + 4 + (if rec.separated then 12 else rec.value.length)

-- The split loop; cur and curBytes are the open group.
def splitGroups (target : Nat) : List Record → Nat → List Record → List (List Record)
  | cur, _, [] => if cur.isEmpty then [] else [cur]
  | cur, curBytes, rec :: rest =>
      if curBytes + groupBytes rec ≥ target then (cur ++ [rec]) :: splitGroups target [] 0 rest
      else splitGroups target (cur ++ [rec]) (curBytes + groupBytes rec) rest

end Tombstash
