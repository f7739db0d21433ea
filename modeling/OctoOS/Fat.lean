import OctoOS.Ata

set_option autoImplicit false

/-! # The FAT16 driver (`kernel/fat.c`)

Every function of the driver as a program over the steps of `Ata.lean`, in the order the C code
makes them. The mounted geometry (the static `fs`) is a parameter; `fat_mount` returns it. Cluster
0 stands for the root directory throughout. Internal functions answer `true` for success; the
exported ones return the C result `0` or `-1`. Every loop of the source that nothing bounds runs
with a number of rounds that no terminating run reaches. -/

namespace OctoOS

open Atomic

/-! ## Constants and on-disk records -/

def attrVolume : UInt8 := 0x08
def attrDir : UInt8 := 0x10
def attrLfn : UInt8 := 0x0F

def clusterFree : UInt16 := 0x0000
def clusterEoc : UInt16 := 0xFFFF

/-- `IS_EOC(c)`. -/
def isEoc (c : UInt16) : Prop := 0xFFF8 ≤ c
  deriving Decidable

def slash : UInt8 := 0x2F
def dot : UInt8 := 0x2E
def space : UInt8 := 0x20

/-- An 8.3 name, padded with blanks. -/
abbrev Name83 := Vector UInt8 11

/-- The first byte of the name, which also marks slots that are not in use. -/
def Name83.first (name : Name83) : UInt8 := name[0]

def Name83.setFirst (name : Name83) (b : UInt8) : Name83 := name.set 0 b

/-- The first byte of the extension. -/
def Name83.firstExt (name : Name83) : UInt8 := name[8]

/-- `struct dirent`. -/
structure Dirent where
  name : Name83
  attr : UInt8
  reserved : Vector UInt8 8
  clusterHi : UInt16
  mtime : UInt16
  mdate : UInt16
  clusterLo : UInt16
  size : UInt32
  deriving DecidableEq

/-- `struct loc`: where a directory entry lives on disk. -/
structure Loc where
  lba : ℕ
  off : ℕ
  deriving DecidableEq

/-- The mounted geometry, the static `fs`. -/
structure Fs where
  mounted : Bool
  partLba : ℕ
  fatLba : ℕ
  fatSectors : ℕ
  numFats : ℕ
  rootLba : ℕ
  rootSectors : ℕ
  dataLba : ℕ
  rootEntries : ℕ
  sectorsPerCluster : ℕ
  maxCluster : ℕ
  deriving DecidableEq

/-- `rd16(p + i)`. -/
def rd16 (p : Sector) (i : ℕ) : UInt16 := UInt16.ofNat ((p i).toNat + 256 * (p (i + 1)).toNat)

/-- `rd32(p + i)`. -/
def rd32 (p : Sector) (i : ℕ) : UInt32 :=
  UInt32.ofNat ((p i).toNat + 256 * (p (i + 1)).toNat + 65536 * (p (i + 2)).toNat
    + 16777216 * (p (i + 3)).toNat)

/-- Byte `k` of a little-endian number. -/
def leByte (v k : ℕ) : UInt8 := UInt8.ofNat (v / 256 ^ k)

/-- The entry in the 32 bytes of `p` from `o` on. -/
def readDirent (p : Sector) (o : ℕ) : Dirent where
  name := Vector.ofFn (fun i => p (o + i))
  attr := p (o + 11)
  reserved := Vector.ofFn (fun i => p (o + 12 + i))
  clusterHi := rd16 p (o + 20)
  mtime := rd16 p (o + 22)
  mdate := rd16 p (o + 24)
  clusterLo := rd16 p (o + 26)
  size := rd32 p (o + 28)

/-- Byte `i` of an entry on disk. -/
def Dirent.byte (d : Dirent) (i : ℕ) : UInt8 :=
  if h : i < 11 then d.name[i]
  else if i = 11 then d.attr
  else if h : i - 12 < 8 then d.reserved[i - 12]
  else if i < 22 then leByte d.clusterHi.toNat (i - 20)
  else if i < 24 then leByte d.mtime.toNat (i - 22)
  else if i < 26 then leByte d.mdate.toNat (i - 24)
  else if i < 28 then leByte d.clusterLo.toNat (i - 26)
  else leByte d.size.toNat (i - 28)

/-- The 32 bytes of an entry on disk. -/
def Dirent.bytes (d : Dirent) : Bytes := (List.range 32).map d.byte

/-- `memset(&d, 0, sizeof(d))`. -/
def Dirent.zero : Dirent := ⟨Vector.replicate 11 0, 0, Vector.replicate 8 0, 0, 0, 0, 0, 0⟩

/-- `d->attr & ATTR_DIR`. -/
def Dirent.isDir (d : Dirent) : Bool := d.attr &&& attrDir ≠ 0

/-- `entry_in_use`. -/
def entryInUse (d : Dirent) : Bool :=
  d.name.first ≠ 0x00 && d.name.first ≠ 0xE5 && d.attr ≠ attrLfn && (d.attr &&& attrVolume) = 0

/-! ## FAT access -/

/-- The rounds given to a loop over cluster numbers. -/
def clusterLoopBound : ℕ := 2 ^ 17

/-- `fat_get`. -/
def fatGet (fs : Fs) (cluster : UInt16) : Fat UInt16 := do
  let off := cluster.toNat * 2
  if ← ataRead (w32 (fs.fatLba + off / sectorSize)) then
    return rd16 (← bufLoad) (off % sectorSize)
  else return clusterEoc

/-- The loop of `fat_set` over the `n` FAT copies from copy `f` on. -/
def fatSetLoop (fs : Fs) (cluster value : UInt16) : ℕ → ℕ → Fat Bool
  | 0, _ => return true
  | n + 1, f => do
    let off := cluster.toNat * 2
    let lba := w32 (fs.fatLba + f * fs.fatSectors + off / sectorSize)
    if ← ataRead lba then
      bufStore (off % sectorSize) [leByte value.toNat 0]
      bufStore (off % sectorSize + 1) [leByte value.toNat 1]
      if ← ataWrite lba then fatSetLoop fs cluster value n (f + 1) else return false
    else return false

/-- `fat_set`. -/
def fatSet (fs : Fs) (cluster value : UInt16) : Fat Bool := fatSetLoop fs cluster value fs.numFats 0

/-- The loop of `cluster_alloc` from `c` on; `c` is a `uint16_t` and wraps. -/
def clusterAllocLoop (fs : Fs) : ℕ → UInt16 → Fat UInt16
  | 0, _ => .stop .diverges
  | fuel + 1, c =>
    if c.toNat ≤ fs.maxCluster then do
      if (← fatGet fs c) = clusterFree then
        if ← fatSet fs c clusterEoc then return c else return 0
      else clusterAllocLoop fs fuel (c + 1)
    else return 0

/-- `cluster_alloc`. -/
def clusterAlloc (fs : Fs) : Fat UInt16 := clusterAllocLoop fs clusterLoopBound 2

/-- The loop of `chain_free`. -/
def chainFreeLoop (fs : Fs) : ℕ → UInt16 → Fat Unit
  | 0, _ => .stop .diverges
  | fuel + 1, cluster =>
    if 2 ≤ cluster ∧ ¬ isEoc cluster then do
      let next ← fatGet fs cluster
      let _ ← fatSet fs cluster clusterFree
      chainFreeLoop fs fuel next
    else return ()

/-- `chain_free`. -/
def chainFree (fs : Fs) (cluster : UInt16) : Fat Unit := chainFreeLoop fs clusterLoopBound cluster

/-- `cluster_lba`; a cluster below 2 wraps around. -/
def clusterLba (fs : Fs) (cluster : UInt16) : ℕ :=
  w32 (fs.dataLba + sub32 cluster.toNat 2 * fs.sectorsPerCluster)

/-! ## Directory iteration -/

/-- `struct dir_iter`. -/
structure DirIter where
  cluster : UInt16
  sector : ℕ
  entry : ℕ
  done : Bool

/-- `dir_begin`. -/
def dirBegin (dirCluster : UInt16) : DirIter := ⟨dirCluster, 0, 0, false⟩

/-- The sector an iterator stands on, after moving on to the next cluster at the end of one. -/
def dirSector (fs : Fs) (it : DirIter) : Fat (Option (DirIter × ℕ)) :=
  if it.cluster = 0 then
    if fs.rootSectors ≤ it.sector then return none
    else return some (it, w32 (fs.rootLba + it.sector))
  else if fs.sectorsPerCluster ≤ it.sector then do
    let next ← fatGet fs it.cluster
    if isEoc next then return none
    else return some ({ it with cluster := next, sector := 0 }, w32 (clusterLba fs next + 0))
  else return some (it, w32 (clusterLba fs it.cluster + it.sector))

/-- The loop of `dir_next`. Two rounds are enough: the first one that does not return resets
    `entry` to 0. -/
def dirNextLoop (fs : Fs) : ℕ → DirIter → Fat (Option (DirIter × Dirent × Loc))
  | 0, _ => .stop .diverges
  | fuel + 1, it => do
    match ← dirSector fs it with
    | none => return none
    | some (it, lba) =>
      if ← ataRead lba then
        if it.entry < sectorSize / 32 then
          let d := readDirent (← bufLoad) (it.entry * 32)
          return some ({ it with entry := it.entry + 1 }, d, ⟨lba, it.entry * 32⟩)
        else dirNextLoop fs fuel { it with entry := 0, sector := it.sector + 1 }
      else return none

/-- `dir_next`. -/
def dirNext (fs : Fs) (it : DirIter) : Fat (Option (DirIter × Dirent × Loc)) :=
  if it.done then return none else dirNextLoop fs 2 it

/-- The rounds given to a loop over directory entries. -/
def dirLoopBound : ℕ := 2 ^ 64

/-- `while (dir_next(&it, &d, &l)) body`; the body answers `some r` to leave the loop. -/
def dirWhile {β : Type} (fs : Fs) (body : Dirent → Loc → Fat (Option β)) :
    ℕ → DirIter → Fat (Option β)
  | 0, _ => .stop .diverges
  | fuel + 1, it => do
    match ← dirNext fs it with
    | none => return none
    | some (it, d, l) =>
      match ← body d l with
      | some r => return some r
      | none => dirWhile fs body fuel it

/-! ## Names and paths -/

/-- ASCII upper case, as the source writes it out. -/
def upper (c : UInt8) : UInt8 := if 0x61 ≤ c ∧ c ≤ 0x7A then c - 0x61 + 0x41 else c

/-- A base and an extension in their padded fields. -/
def name83 (base ext : Bytes) : Name83 :=
  Vector.ofFn (fun i => if i.val < 8 then base.getD i.val space else ext.getD (i.val - 8) space)

/-- `to_83` on one path component; `none` for -1. -/
def to83 (name : Bytes) : Option Name83 :=
  if name = [dot] then some (name83 [dot] [])
  else if name = [dot, dot] then some (name83 [dot, dot] [])
  else
    let base := name.takeWhile (· ≠ dot)
    if 8 < base.length then none
    else
      match name.dropWhile (· ≠ dot) with
      | [] => some (name83 (base.map upper) [])
      | _ :: ext =>
        if 3 < ext.length ∨ dot ∈ ext then none
        else some (name83 (base.map upper) (ext.map upper))

/-- `format_name`. -/
def formatName (raw : Name83) : Bytes :=
  let base := (raw.toList.take 8).takeWhile (· ≠ space)
  if raw.firstExt = space then base
  else base ++ dot :: (raw.toList.drop 8).takeWhile (· ≠ space)

/-- The components the path loops see: up to the next slash, then past all slashes. -/
def componentsLoop : ℕ → Bytes → List Bytes
  | 0, _ => []
  | _, [] => []
  | fuel + 1, path =>
    path.takeWhile (· ≠ slash) ::
      componentsLoop fuel ((path.dropWhile (· ≠ slash)).dropWhile (· = slash))

def components (path : Bytes) : List Bytes := componentsLoop path.length path

/-- What one entry means for `dir_find`: leave with a result, or go on. -/
def findEntry (name : Name83) (d : Dirent) (l : Loc) : Option (Option (Dirent × Loc)) :=
  if d.name.first = 0x00 then some none
  else if !entryInUse d then none
  else if d.name = name then some (some (d, l))
  else none

/-- The entry that stands for a directory given by its cluster. -/
def dirEntry (cluster : UInt16) : Dirent := { Dirent.zero with attr := attrDir, clusterLo := cluster }

/-- `dir_find`: the entry, with its location unless it is the synthetic one of the root. -/
def dirFind (fs : Fs) (dirCluster : UInt16) (name : Name83) :
    Fat (Option (Dirent × Option Loc)) :=
  if dirCluster = 0 ∧ name.first = dot then return some (dirEntry 0, none)
  else do
    let r ← dirWhile fs (fun d l => return findEntry name d l) dirLoopBound (dirBegin dirCluster)
    return r.join.map (fun p => (p.1, some p.2))

/-- The loop of `resolve`. A synthetic entry leaves `*where` alone. The third component of the
    result is `last83`, set with `parent_of` only. -/
def resolveLoop (fs : Fs) (parentOf : Bool) :
    List Bytes → Dirent → Loc → Fat (Option (Dirent × Loc × Name83))
  | [], out, loc => return if parentOf then none else some (out, loc, Dirent.zero.name)
  | comp :: rest, out, loc =>
    match to83 comp with
    | none => return none
    | some name =>
      if parentOf ∧ rest = [] then return some (out, loc, name)
      else if !out.isDir then return none
      else do
        match ← dirFind fs out.clusterLo name with
        | none => return none
        | some (d, l) => resolveLoop fs parentOf rest d (l.getD loc)

/-- Where a path starts: the root for a leading slash, which is dropped, else `cwd_cluster`. -/
def pathStart (cwd : UInt16) : Bytes → UInt16 × Bytes
  | [] => (cwd, [])
  | c :: path => if c = slash then (0, path) else (cwd, c :: path)

/-- `resolve`, with the value of `*where` before the call. -/
def resolve (fs : Fs) (parentOf : Bool) (path : Bytes) (loc : Loc) :
    Fat (Option (Dirent × Loc × Name83)) := do
  let start := pathStart (← getCwdCluster) path
  resolveLoop fs parentOf (components start.2) (dirEntry start.1) loc

/-! ## Read side -/

def noFilesystem : Bytes := str "no filesystem mounted\n"

/-- One line of `fat_ls`. The decimal is that of `%u`. -/
def lsLine (d : Dirent) : Bytes :=
  if d.isDir then formatName d.name ++ str "  <DIR>\n"
  else formatName d.name ++ str "  " ++ str (toString d.size.toNat) ++ str " bytes\n"

/-- `fat_ls`. -/
def fatLs (fs : Fs) (path : Bytes) : Fat Int := do
  if !fs.mounted then
    print noFilesystem
    return -1
  else
    match ← resolve fs false path ⟨0, 0⟩ with
    | some (d, _, _) =>
      if d.isDir then
        let _ ← dirWhile (β := Unit) fs
          (fun d _ => do
            if d.name.first = 0x00 then return some ()
            else if !entryInUse d then return none
            else
              print (lsLine d)
              return none)
          dirLoopBound (dirBegin d.clusterLo)
        return 0
      else
        print (str "not a directory: " ++ (if path = [] then str "?" else path) ++ str "\n")
        return -1
    | none =>
      print (str "not a directory: " ++ (if path = [] then str "?" else path) ++ str "\n")
      return -1

/-- The rounds given to the loop of `file_stream`; every round consumes a byte. -/
def streamLoopBound : ℕ := 2 ^ 32 + 1

/-- The loop of `file_stream`, then its clean-up. `fn` is the callback with its argument. -/
def fileStreamLoop {γ : Type} (fs : Fs) (fn : γ → Bytes → Fat γ) (buf : ℕ) :
    ℕ → ℕ → UInt16 → γ → Fat (Option γ)
  | 0, _, _, _ => .stop .diverges
  | fuel + 1, remaining, cluster, arg =>
    let clusterBytes := w32 (fs.sectorsPerCluster * sectorSize)
    if remaining ≠ 0 ∧ 2 ≤ cluster ∧ ¬ isEoc cluster then do
      match ← ataReadTo (clusterLba fs cluster) fs.sectorsPerCluster buf with
      | none =>
        kfree buf
        return none
      | some data =>
        let chunk := if remaining < clusterBytes then remaining else clusterBytes
        let arg ← fn arg (data.take chunk)
        let next ← fatGet fs cluster
        fileStreamLoop fs fn buf fuel (remaining - chunk) next arg
    else do
      kfree buf
      return if remaining = 0 then some arg else none

/-- `file_stream`. -/
def fileStream {γ : Type} (fs : Fs) (d : Dirent) (fn : γ → Bytes → Fat γ) (arg : γ) :
    Fat (Option γ) := do
  let buf ← kmalloc (w32 (fs.sectorsPerCluster * sectorSize))
  if buf = 0 then return none
  else fileStreamLoop fs fn buf streamLoopBound d.size.toNat d.clusterLo arg

/-- `stream_copy` to the heap block `buf`; the argument is what was copied so far. -/
def streamCopy (buf : ℕ) (copied data : Bytes) : Fat Bytes := do
  heapStore buf copied.length data.length
  return copied ++ data

/-- `lookup_file`. -/
def lookupFile (fs : Fs) (path : Bytes) : Fat (Option Dirent) := do
  if !fs.mounted then
    print noFilesystem
    return none
  else
    match ← resolve fs false path ⟨0, 0⟩ with
    | none =>
      print (str "no such file: " ++ path ++ str "\n")
      return none
    | some (d, _, _) =>
      if d.isDir then
        print (path ++ str " is a directory\n")
        return none
      else return some d

/-- `fat_read_file`: the buffer and the bytes in it; `*size` is their number. -/
def fatReadFile (fs : Fs) (path : Bytes) : Fat (Option (ℕ × Bytes)) := do
  match ← lookupFile fs path with
  | none => return none
  | some d =>
    let buf ← kmalloc (if d.size = 0 then 1 else d.size.toNat)
    if buf = 0 then
      print (str "out of memory\n")
      return none
    else
      match ← fileStream fs d (streamCopy buf) [] with
      | none =>
        print (str "read error\n")
        kfree buf
        return none
      | some data => return some (buf, data)

/-! ## Write side -/

/-- `loc_update`. -/
def locUpdate (l : Loc) (d : Dirent) : Fat Bool := do
  if ← ataRead l.lba then
    bufStore l.off d.bytes
    ataWrite l.lba
  else return false

/-- `dir_free_slot`. -/
def dirFreeSlot (fs : Fs) (dirCluster : UInt16) : Fat (Option Loc) :=
  dirWhile fs (fun d l => return if d.name.first = 0x00 ∨ d.name.first = 0xE5 then some l else none)
    dirLoopBound (dirBegin dirCluster)

/-- The loop of `cluster_zero` over the `n` sectors from sector `s` on. -/
def clusterZeroLoop (fs : Fs) (cluster : UInt16) : ℕ → ℕ → Fat Bool
  | 0, _ => return true
  | n + 1, s => do
    if ← ataWrite (w32 (clusterLba fs cluster + s)) then clusterZeroLoop fs cluster n (s + 1)
    else return false

/-- `cluster_zero`. -/
def clusterZero (fs : Fs) (cluster : UInt16) : Fat Bool := do
  bufStore 0 (List.replicate sectorSize 0)
  clusterZeroLoop fs cluster fs.sectorsPerCluster 0

/-- The exit `fail` of `chain_write`. -/
def chainWriteFail (fs : Fs) (buf : ℕ) (first : UInt16) : Fat UInt16 := do
  if first ≠ 0 then chainFree fs first
  kfree buf
  return 0

/-- The rounds given to the loop of `chain_write`; every round consumes a byte. -/
def writeLoopBound : ℕ := 2 ^ 32 + 1

/-- The loop of `chain_write`; `data` is what `src` and `size` still cover. -/
def chainWriteLoop (fs : Fs) (buf : ℕ) : ℕ → Bytes → UInt16 → UInt16 → Fat UInt16
  | 0, _, _, _ => .stop .diverges
  | fuel + 1, data, first, prev =>
    let clusterBytes := w32 (fs.sectorsPerCluster * sectorSize)
    if data = [] then do
      kfree buf
      return first
    else do
      let c ← clusterAlloc fs
      if c = 0 then chainWriteFail fs buf first
      else do
        let first := if first = 0 then c else first
        let linked ← (if prev ≠ 0 then fatSet fs prev c else pure true : Fat Bool)
        if !linked then chainWriteFail fs buf first
        else do
          let chunk := data.take clusterBytes
          heapStore buf 0 clusterBytes
          let image := chunk ++ List.replicate (clusterBytes - chunk.length) 0
          if ← ataWriteFrom (clusterLba fs c) fs.sectorsPerCluster image then
            chainWriteLoop fs buf fuel (data.drop clusterBytes) first c
          else chainWriteFail fs buf first

/-- `chain_write`. -/
def chainWrite (fs : Fs) (data : Bytes) : Fat UInt16 :=
  if data = [] then return 0
  else do
    let buf ← kmalloc (w32 (fs.sectorsPerCluster * sectorSize))
    if buf = 0 then return 0
    else chainWriteLoop fs buf writeLoopBound data 0 0

/-- The parent directory and last name of a path that can name a new entry. -/
def parentOf (fs : Fs) (path : Bytes) : Fat (Option (Dirent × Name83)) := do
  match ← resolve fs true path ⟨0, 0⟩ with
  | none => return none
  | some (parent, _, name) =>
    if !parent.isDir ∨ name.first = dot then return none else return some (parent, name)

/-- The end of `fat_write_file`: write the data and point the entry at it. -/
def writeEntry (fs : Fs) (data : Bytes) (d : Dirent) (loc : Loc) : Fat Int := do
  let first ← chainWrite fs data
  if data ≠ [] ∧ first = 0 then
    print (str "disk full or write error\n")
    return -1
  else
    let d := { d with clusterLo := first, clusterHi := 0, size := UInt32.ofNat data.length }
    return if ← locUpdate loc d then 0 else -1

/-- `fat_write_file`; `data` is the `size` bytes at the pointer. -/
def fatWriteFile (fs : Fs) (path data : Bytes) : Fat Int := do
  if !fs.mounted then
    print noFilesystem
    return -1
  else
    match ← parentOf fs path with
    | none =>
      print (str "bad path: " ++ path ++ str "\n")
      return -1
    | some (parent, name) =>
      match ← dirFind fs parent.clusterLo name with
      | some (d, loc) =>
        if d.isDir then
          print (path ++ str " is a directory\n")
          return -1
        else
          if 2 ≤ d.clusterLo then chainFree fs d.clusterLo
          writeEntry fs data d (loc.getD ⟨0, 0⟩)
      | none =>
        match ← dirFreeSlot fs parent.clusterLo with
        | none =>
          print (str "directory full\n")
          return -1
        | some loc => writeEntry fs data { Dirent.zero with name := name } loc

/-- What one entry means for the emptiness scan of `fat_rm`: `some true` ends the scan,
    `some false` reports an entry. -/
def scanEntry (e : Dirent) : Option Bool :=
  if e.name.first = 0x00 then some true
  else if entryInUse e ∧ e.name.first ≠ dot then some false
  else none

/-- The emptiness scan of `fat_rm`. -/
def dirIsEmpty (fs : Fs) (dirCluster : UInt16) : Fat Bool := do
  let r ← dirWhile fs (fun e _ => return scanEntry e) dirLoopBound (dirBegin dirCluster)
  return r.getD true

/-- The end of `fat_rm`: free the chain and mark the entry deleted. -/
def removeEntry (fs : Fs) (d : Dirent) (loc : Loc) : Fat Int := do
  if 2 ≤ d.clusterLo then chainFree fs d.clusterLo
  return if ← locUpdate loc { d with name := d.name.setFirst 0xE5 } then 0 else -1

/-- `fat_rm`. -/
def fatRm (fs : Fs) (path : Bytes) : Fat Int := do
  if !fs.mounted then
    print noFilesystem
    return -1
  else
    match ← resolve fs false path ⟨0, 0⟩ with
    | none =>
      print (str "no such file: " ++ path ++ str "\n")
      return -1
    | some (d, loc, _) =>
      if loc.lba = 0 ∨ d.name.first = dot then
        print (str "cannot remove " ++ path ++ str "\n")
        return -1
      else if d.isDir then
        if ← dirIsEmpty fs d.clusterLo then removeEntry fs d loc
        else
          print (str "directory not empty: " ++ path ++ str "\n")
          return -1
      else removeEntry fs d loc

/-- The `.` entry of a new directory. -/
def dotEntry (c : UInt16) : Dirent := { dirEntry c with name := name83 [dot] [] }

/-- The `..` entry of a new directory. -/
def dotdotEntry (parent : UInt16) : Dirent := { dirEntry parent with name := name83 [dot, dot] [] }

/-- The end of `fat_mkdir`: fill the new cluster `c` and write the entry. -/
def makeDir (fs : Fs) (parent : Dirent) (name : Name83) (loc : Loc) (c : UInt16) : Fat Int := do
  bufStore 0 (List.replicate sectorSize 0)
  bufStore 0 (dotEntry c).bytes
  bufStore 32 (dotdotEntry parent.clusterLo).bytes
  if ← ataWrite (clusterLba fs c) then
    return if ← locUpdate loc { dirEntry c with name := name } then 0 else -1
  else return -1

/-- `fat_mkdir`. -/
def fatMkdir (fs : Fs) (path : Bytes) : Fat Int := do
  if !fs.mounted then
    print noFilesystem
    return -1
  else
    match ← parentOf fs path with
    | none =>
      print (str "bad path: " ++ path ++ str "\n")
      return -1
    | some (parent, name) =>
      match ← dirFind fs parent.clusterLo name with
      | some _ =>
        print (str "already exists: " ++ path ++ str "\n")
        return -1
      | none =>
        match ← dirFreeSlot fs parent.clusterLo with
        | none =>
          print (str "directory full\n")
          return -1
        | some loc =>
          let c ← clusterAlloc fs
          if c = 0 then
            print (str "disk full or write error\n")
            return -1
          else if ← clusterZero fs c then makeDir fs parent name loc c
          else
            print (str "disk full or write error\n")
            return -1

/-! ## Working directory -/

/-- `next[n++] = c` on the 128 bytes of `next`, which hold `text`; outside them it is undefined. -/
def cwdPush (text : Bytes) (c : UInt8) : Option Bytes :=
  if text.length < 128 then some (text ++ [c]) else none

/-- The steps of `cwd_apply` for `..`, on the reversed text. -/
def cwdUp : Bytes → Bytes
  | c :: d :: text => if c = slash then d :: text else cwdUp (d :: text)
  | text => text

/-- The copy loop of `cwd_apply`, which stops silently at 126 bytes. -/
def cwdCopy (text : Bytes) : Bytes → Bytes
  | [] => text
  | c :: rest => if text.length < 126 then cwdCopy (text ++ [upper c]) rest else text

/-- One round of the loop of `cwd_apply`. -/
def cwdStep (text comp : Bytes) : Option Bytes :=
  if comp = [dot] then some text
  else if comp = [dot, dot] then some (cwdUp text.reverse).reverse
  else do
    let text ← if 1 < text.length then cwdPush text slash else some text
    return cwdCopy text comp

/-- `cwd_apply`: the new `cwd_path`, `none` when a store leaves the 128 bytes of `next`. -/
def cwdApply (cwd path : Bytes) : Option Bytes := do
  let start := if path.head? = some slash then ([slash], path.dropWhile (· = slash)) else (cwd, path)
  let text ← (components start.2).foldlM cwdStep start.1
  let text ← if text = [] then cwdPush text slash else some text
  if text.length < 128 then some text else none

/-- `fat_cd`. -/
def fatCd (fs : Fs) (path : Bytes) : Fat Int := do
  if !fs.mounted then
    print noFilesystem
    return -1
  else
    match ← resolve fs false path ⟨0, 0⟩ with
    | some (d, _, _) =>
      if d.isDir then
        setCwdCluster d.clusterLo
        match cwdApply (← getCwdPath) path with
        | some text =>
          setCwdPath text
          return 0
        | none => .stop .undefined
      else
        print (str "not a directory: " ++ path ++ str "\n")
        return -1
    | none =>
      print (str "not a directory: " ++ path ++ str "\n")
      return -1

/-! ## Mounting -/

/-- The partition loop of `fat_mount`: start and length of the first FAT partition. -/
def findPartition (mbr : Sector) : ℕ → ℕ → ℕ × ℕ
  | 0, _ => (0, 0)
  | n + 1, i =>
    let e := 446 + i * 16
    if mbr (e + 4) = 0x04 ∨ mbr (e + 4) = 0x06 ∨ mbr (e + 4) = 0x0E then
      ((rd32 mbr (e + 8)).toNat, (rd32 mbr (e + 12)).toNat)
    else findPartition mbr n (i + 1)

/-- The geometry `fat_mount` stores for a partition and its boot sector. -/
def bpbGeometry (part : ℕ × ℕ) (bpb : Sector) : Fs :=
  let spc := (bpb 13).toNat
  let reserved := (rd16 bpb 14).toNat
  let numFats := (bpb 16).toNat
  let rootEntries := (rd16 bpb 17).toNat
  let fatSize := (rd16 bpb 22).toNat
  let fatLba := w32 (part.1 + reserved)
  let rootLba := w32 (fatLba + numFats * fatSize)
  let rootSectors := (rootEntries * 32 + sectorSize - 1) / sectorSize
  let dataLba := w32 (rootLba + rootSectors)
  { mounted := true
    partLba := part.1
    fatLba := fatLba
    fatSectors := fatSize
    numFats := numFats
    rootLba := rootLba
    rootSectors := rootSectors
    dataLba := dataLba
    rootEntries := rootEntries
    sectorsPerCluster := spc
    maxCluster := w32 (1 + sub32 part.2 (sub32 dataLba part.1) / spc) }

/-- `fat_mount`: the geometry stored in `fs`, `none` for -1. -/
def fatMount : Fat (Option Fs) := do
  if ← ataRead 0 then
    let mbr ← bufLoad
    if (rd16 mbr 510) ≠ 0xAA55 then return none
    else
      let part := findPartition mbr 4 0
      if part.1 = 0 then return none
      else if ← ataRead part.1 then
        let bpb ← bufLoad
        if (rd16 bpb 11).toNat ≠ sectorSize ∨ bpb 13 = 0 ∨ bpb 16 = 0 ∨ rd16 bpb 22 = 0 then
          return none
        else
          setCwdCluster 0
          setCwdPath [slash]
          return some (bpbGeometry part bpb)
      else return none
  else return none

end OctoOS
