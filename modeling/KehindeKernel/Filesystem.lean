import KehindeKernel.HeapAlloc
import KehindeKernel.Lib.Bytes
import KehindeKernel.Lib.Linked

/-!
The ramfs of `filesystem.cpp`. Pointers are heap addresses with 0 for null.
`inodes` and `blocks` hold the live objects, `raw` what a region of heap memory
holds when `kmalloc` hands it out. A string argument is the list of bytes up to
the end of its object; reading past the end, or through a pointer to no object,
is a fault. List walks carry fuel for more cells than the heap has room for.
-/

namespace KehindeKernel

open Outcome

/-- `BLOCK_SIZE` -/
def blockSize : Nat := 4096

/-- `sizeof(block::data)` -/
def payloadSize : Nat := 4088

/-- `sizeof(inode)` -/
def inodeBytes : Nat := 40

/-- `sizeof(dirent)` -/
def direntSize : Nat := 264

def direntsPerBlock : Nat := payloadSize / direntSize

/-- `MAX_SIZE` -/
def maxSize : Nat := 255

/-- `INVALID_INO` -/
def invalidIno : Nat := 0

/-- `ROOT_INO` -/
def rootIno : Nat := 1

structure Block where
  next : Nat
  data : Bytes.Region

structure Inode where
  ino : Nat
  inodeType : UInt8
  inodeSize : Nat
  firstBlock : Nat
  next : Nat

structure Dirent where
  inodeId : Nat
  name : List UInt8
  deriving DecidableEq

/-- A `dirent *`: a slot in the payload of a block. -/
structure DirentPtr where
  block : Nat
  slot : Nat
  deriving DecidableEq

structure Fs (σ : Type) where
  heap : Heap σ
  raw : Nat → Bytes.Region
  inodes : Nat → Option Inode
  blocks : Nat → Option Block
  inodeListHead : Nat
  nextIno : Nat

/-- A region read as a block before anything was stored in it. -/
def rawBlock (region : Bytes.Region) : Block where
  next := Bytes.decode 8 region
  data := fun i => region (8 + i)

def rawInode (region : Bytes.Region) : Inode where
  ino := Bytes.decode 8 region
  inodeType := region 8
  inodeSize := Bytes.decode 8 fun i => region (16 + i)
  firstBlock := Bytes.decode 8 fun i => region (24 + i)
  next := Bytes.decode 8 fun i => region (32 + i)

/-- More cells than `HEAP_MAX_SIZE` has room for. -/
def walkFuel : Nat := heapMaxSize / 16 + 1

/-- Conversion to the `int64_t` the read and write calls return. -/
def toInt64 (n : Nat) : Int := if n < 2 ^ 63 then n else (n : Int) - 2 ^ 64

variable {σ : Type}

/-- The filesystem before `fs_init`. -/
def fsEmpty (heap : Heap σ) (raw : Nat → Bytes.Region) : Fs σ where
  heap := heap
  raw := raw
  inodes := fun _ => none
  blocks := fun _ => none
  inodeListHead := 0
  nextIno := 1

def Fs.setInode (s : Fs σ) (p : Nat) (n : Inode) : Fs σ :=
  { s with inodes := Function.update s.inodes p (some n) }

def Fs.setBlock (s : Fs σ) (p : Nat) (b : Block) : Fs σ :=
  { s with blocks := Function.update s.blocks p (some b) }

def strlen : List UInt8 → Run Nat
  | [] => throw .fault
  | c :: rest =>
      if c = 0 then pure 0
      else do
        let n ← strlen rest
        pure (n + 1)

/-- The loop of `name_matches_single`, run after the lengths agreed. -/
def sameBytes : List UInt8 → List UInt8 → Run Bool
  | c :: rest, d :: rest' =>
      if c ≠ 0 ∨ d ≠ 0 then
        if c ≠ d then pure false else sameBytes rest rest'
      else pure true
  | _, _ => throw .fault

def nameMatchesSingle (name1 name2 : List UInt8) : Run Bool := do
  let len1 ← strlen name1
  let len2 ← strlen name2
  if len1 ≠ len2 then pure false else sameBytes name1 name2

def nameMatchesFrom (path : List UInt8) (start : Nat) (name : List UInt8) : Nat → Nat → Run Bool
  | 0, i => do
      -- the segment is used up, the name must end here too
      let c ← fetch name[i]?
      pure (decide (c = 0))
  | trips + 1, i => do
      let p ← fetch path[start + i]?
      let c ← fetch name[i]?
      if p ≠ c then pure false
      else if c = 0 then pure false
      else nameMatchesFrom path start name trips (i + 1)

/-- `end - start` on 64-bit indices. -/
def indexDiff (stop start : Nat) : Nat := if start ≤ stop then stop - start else 2 ^ 64 - (start - stop)

def nameMatches (path : List UInt8) (start stop : Nat) (name : List UInt8) : Run Bool :=
  nameMatchesFrom path start name (indexDiff stop start) 0

/-- The character `'/'`. -/
def slash : UInt8 := 47

/-- The inner loop of `parse_path`. -/
def segmentEnd (path : List UInt8) : Nat → Nat → Run Nat
  | 0, _ => throw .hang
  | fuel + 1, i => do
      let c ← fetch path[i]?
      if c ≠ 0 ∧ c ≠ slash then segmentEnd path fuel (i + 1) else pure i

/-- The outer loop of `parse_path` with `free` entries of `ends` left. -/
def parseSegments (path : List UInt8) : Nat → Nat → Run (List Nat)
  | 0, i => do
      -- the loop reads the character before it compares the count
      let _ ← fetch path[i]?
      pure []
  | free + 1, i => do
      let c ← fetch path[i]?
      if c = 0 then pure []
      else
        let stop ← segmentEnd path (path.length + 1) (i + 1)
        let rest ← parseSegments path free stop
        pure (stop :: rest)

/-- The indices `parse_path` writes into `ends`. -/
def parsePath (path : List UInt8) (maxSegments : Nat) : Run (List Nat) := do
  let len ← strlen path
  let c ← fetch path[0]?
  if len = 1 ∧ c = slash then pure [] else parseSegments path maxSegments 0

/-- The pointer `find_inode` returns. -/
def findInode (s : Fs σ) (ino : Nat) : Run Nat :=
  Linked.find 0 Inode.next s.inodes (fun n => n.ino == ino) walkFuel s.inodeListHead

def direntAt (s : Fs σ) (dir : Inode) (idx : Nat) : Run (Option DirentPtr) :=
  if idx ≥ dir.inodeSize then pure none
  else
    let blockIndex := idx / direntsPerBlock
    let slot := idx % direntsPerBlock
    if dir.firstBlock = 0 then pure none
    else do
      let curr ← Linked.advance 0 Block.next s.blocks blockIndex dir.firstBlock
      pure (curr.map fun block => { block, slot })

def direntOf (data : Bytes.Region) (slot : Nat) : Dirent where
  inodeId := Bytes.decode 8 fun i => data (direntSize * slot + i)
  name := Bytes.load data (direntSize * slot + 8) (maxSize + 1)

def readDirent (s : Fs σ) (d : DirentPtr) : Run Dirent := do
  let b ← fetch (s.blocks d.block)
  pure (direntOf b.data d.slot)

/-- How a loop over the entries of a directory ends: at an entry that is not
there, at the entry that passed the test, or after the last one. -/
inductive Scan where
  | broken
  | found (d : DirentPtr)
  | exhausted (last : Option DirentPtr)

/-- The entry loop of `fs_lookup`, `fs_create` and `fs_unlink`. -/
def scanDirents (s : Fs σ) (dir : Inode) (test : List UInt8 → Run Bool) :
    Nat → Nat → Option DirentPtr → Run Scan
  | 0, _, last => pure (.exhausted last)
  | trips + 1, i, _ => do
      let found ← direntAt s dir i
      match found with
      | none => pure .broken
      | some d =>
          let entry ← readDirent s d
          let hit ← test entry.name
          if hit then pure (.found d) else scanDirents s dir test trips (i + 1) (some d)

def lookupFrom (s : Fs σ) (path : List UInt8) : List Nat → Nat → Nat → Run Nat
  | [], _, curr => do
      let n ← fetch (s.inodes curr)
      pure n.ino
  | stop :: ends, start, curr => do
      let n ← fetch (s.inodes curr)
      if n.inodeType ≠ 2 then pure invalidIno
      else
        let scan ← scanDirents s n (nameMatches path start stop) n.inodeSize 0 none
        match scan with
        | .found d =>
            let entry ← readDirent s d
            let child ← findInode s entry.inodeId
            lookupFrom s path ends (stop + 1) child
        | _ => pure invalidIno

def fsLookup (s : Fs σ) (path : List UInt8) : Run Nat := do
  let c ← fetch path[0]?
  if c = 0 then pure invalidIno
  else
    let ends ← parsePath path 16
    if ends.length = 0 then pure rootIno
    else
      let root ← findInode s rootIno
      if root = 0 then pure invalidIno else lookupFrom s path ends 1 root

/-- `fs_stat`; a flag says whether the out-pointer is not null. -/
def fsStat (s : Fs σ) (ino : Nat) (sizeOut typeOut : Bool) :
    Run (Int × Option Nat × Option UInt8) := do
  let p ← findInode s ino
  if p = 0 then pure (-1, none, none)
  else
    let n ← fetch (s.inodes p)
    pure (0, if sizeOut then some n.inodeSize else none, if typeOut then some n.inodeType else none)

/-- `out` says whether the out-pointer is not null. -/
def fsReaddir (s : Fs σ) (dirIno index : Nat) (out : Bool) : Run (Int × Option Dirent) := do
  let p ← findInode s dirIno
  if p = 0 then pure (-1, none)
  else
    let subject ← fetch (s.inodes p)
    if subject.inodeType ≠ 2 then pure (-1, none)
    else if out = false then pure (-1, none)
    else if index ≥ subject.inodeSize then pure (0, none)
    else
      let found ← direntAt s subject index
      match found with
      | none => pure (-1, none)
      | some d =>
          let entry ← readDirent s d
          pure (1, some entry)

/-- The copy loop of `fs_read`; the inner `for` copies a whole chunk. -/
def readChunks (s : Fs σ) (capacity len : Nat) : Nat → Nat → Nat → Nat → Run (List UInt8)
  | 0, _, _, copied => if copied < len then throw .hang else pure []
  | fuel + 1, curr, blockOffset, copied =>
      if copied < len then do
        let chunk := min (len - copied) (payloadSize - blockOffset)
        let b ← fetch (s.blocks curr)
        if copied + chunk > capacity then throw .fault
        else
          let rest ← readChunks s capacity len fuel b.next 0 (copied + chunk)
          pure (Bytes.load b.data blockOffset chunk ++ rest)
      else pure []

/-- `buf` is the capacity of the destination, `none` for a null pointer. The
second result is what was copied to its front. -/
def fsRead (s : Fs σ) (ino offset len : Nat) (buf : Option Nat) : Run (Int × List UInt8) :=
  match buf with
  | none => pure (-1, [])
  | some capacity => do
      let blockIndex := offset / payloadSize
      let byteOffset := offset % payloadSize
      let p ← findInode s ino
      if p = 0 then pure (-1, [])
      else
        let subject ← fetch (s.inodes p)
        if subject.inodeType ≠ 1 then pure (-1, [])
        else
          let walked ← Linked.advance 0 Block.next s.blocks (intTrips blockIndex) subject.firstBlock
          -- the walk comes before the check of the end, so an offset far behind it fails
          match walked with
          | none => pure (-1, [])
          | some curr =>
              if offset ≥ subject.inodeSize then pure (0, [])
              else
                let len := if (offset + len) % 2 ^ 64 > subject.inodeSize
                  then subject.inodeSize - offset else len
                let out ← readChunks s capacity len len curr byteOffset 0
                pure (toInt64 len, out)

/-- `*subject_dirent = *last_dirent` -/
def copyDirent (s : Fs σ) (dst src : DirentPtr) : Run (Fs σ) := do
  let source ← fetch (s.blocks src.block)
  let target ← fetch (s.blocks dst.block)
  let bytes := Bytes.load source.data (direntSize * src.slot) direntSize
  let data := Bytes.store target.data (direntSize * dst.slot) bytes
  pure (s.setBlock dst.block { target with data := data })

/-- `fs_unlink` from the check behind its loop on. -/
def unlinkSubject (s : Fs σ) (p : Nat) (parent : Inode) (name : List UInt8)
    (subject : Option DirentPtr) : Run (Int × Fs σ) :=
  match subject with
  | none => pure (-1, s)
  | some d => do
      let entry ← readDirent s d
      -- the loop may have run out at `d`, so the name is compared once more
      let hit ← nameMatchesSingle entry.name name
      if hit = false then pure (-1, s)
      else
        let last ← direntAt s parent (sub64 parent.inodeSize 1)
        match last with
        | none => pure (-1, s)
        | some last =>
            let q ← findInode s entry.inodeId
            if q = 0 then pure (-1, s)
            else
              let inode ← fetch (s.inodes q)
              if inode.inodeType = 2 ∧ inode.inodeSize ≠ 0 then pure (-1, s)
              else
                let shrunk := { parent with inodeSize := sub64 parent.inodeSize 1 }
                if d = last then pure (0, s.setInode p shrunk)
                else
                  let s ← copyDirent s d last
                  pure (0, s.setInode p shrunk)

def fsUnlink (s : Fs σ) (parentIno : Nat) (name : List UInt8) : Run (Int × Fs σ) := do
  let p ← findInode s parentIno
  if p = 0 then pure (-1, s)
  else
    let parent ← fetch (s.inodes p)
    if parent.inodeType ≠ 2 ∨ parent.inodeSize = 0 then pure (-1, s)
    else
      let scan ← scanDirents s parent (fun entry => nameMatchesSingle entry name)
        (intTrips parent.inodeSize) 0 none
      match scan with
      | .broken => pure (-1, s)
      | .found d => unlinkSubject s p parent name (some d)
      | .exhausted last => unlinkSubject s p parent name last

/-- The copy loop behind the growth check of `fs_write`; `buf` ends with its list. -/
def writeChunks (src : List UInt8) (len : Nat) :
    Nat → Nat → Nat → Nat → (Nat → Option Block) → Run (Nat → Option Block)
  | 0, _, _, written, blocks => if written < len then throw .hang else pure blocks
  | fuel + 1, curr, blockOffset, written, blocks =>
      if written < len then do
        let chunk := min (len - written) (payloadSize - blockOffset)
        let b ← fetch (blocks curr)
        if written + chunk > src.length then throw .fault
        else
          let data := Bytes.store b.data blockOffset ((src.drop written).take chunk)
          writeChunks src len fuel b.next 0 (written + chunk)
            (Function.update blocks curr (some { b with data := data }))
      else pure blocks

/-- The name loop of `fs_create`. -/
def copyName (data : Bytes.Region) (at_ : Nat) : List UInt8 → Run Bytes.Region
  | [] => throw .fault
  | c :: rest =>
      let data := Function.update data at_ c
      if c = 0 then pure data else copyName data (at_ + 1) rest

/-- `fs_create` from its block walk on: the entry behind the last one. -/
def linkDirent (s : Fs σ) (p ino : Nat) (name : List UInt8) : Run (Fs σ) := do
  let parent ← fetch (s.inodes p)
  let blockIndex := parent.inodeSize / direntsPerBlock
  let slot := parent.inodeSize % direntsPerBlock
  let walked ← Linked.advance 0 Block.next s.blocks blockIndex parent.firstBlock
  -- the loop breaks at a null link and leaves the null pointer behind
  let curr := walked.getD 0
  let s := s.setInode p { parent with inodeSize := (parent.inodeSize + 1) % 2 ^ 64 }
  let b ← fetch (s.blocks curr)
  let data := Bytes.store b.data (direntSize * slot) (Bytes.encode 8 ino)
  let data ← copyName data (direntSize * slot + 8) name
  pure (s.setBlock curr { b with data := data })

/-- `fs_write` behind its growth loop. -/
def storeRange (s : Fs σ) (p offset len : Nat) (src : List UInt8) : Run (Int × Fs σ) := do
  let need := (offset + len) % 2 ^ 64
  let subject ← fetch (s.inodes p)
  let walked ← Linked.advance 0 Block.next s.blocks (intTrips (offset / payloadSize)) subject.firstBlock
  match walked with
  | none => pure (-1, s)
  | some curr =>
      let blocks ← writeChunks src len len curr (offset % payloadSize) 0 s.blocks
      let s := { s with blocks := blocks }
      if need > subject.inodeSize then
        pure (toInt64 len, s.setInode p { subject with inodeSize := need })
      else pure (toInt64 len, s)

variable [Backing σ]

/-- A new inode at the head of the list, as `fs_init` and `fs_create` make it. -/
def allocInode (s : Fs σ) (inodeType : UInt8) : Run (Nat × Fs σ) := do
  let (p, heap) ← kmalloc s.heap inodeBytes
  let inode := { rawInode (s.raw p) with
    ino := s.nextIno
    inodeType := inodeType
    inodeSize := 0
    firstBlock := 0
    next := s.inodeListHead }
  let s := { s with heap := heap, inodeListHead := p, nextIno := (s.nextIno + 1) % 2 ^ 64 }
  pure (inode.ino, s.setInode p inode)

def fsInit (s : Fs σ) : Run (Fs σ) := do
  let (_, s) ← allocInode s 2
  pure s

/-- A new block keeps what its memory held, the link included. -/
def allocBlock (s : Fs σ) : Run (Nat × Fs σ) := do
  let (p, heap) ← kmalloc s.heap blockSize
  pure (p, { s with heap := heap }.setBlock p (rawBlock (s.raw p)))

def appendBlock (s : Fs σ) (p : Nat) : Run (Fs σ) := do
  let inode ← fetch (s.inodes p)
  if inode.firstBlock = 0 then do
    let (block, s) ← allocBlock s
    pure (s.setInode p { inode with firstBlock := block })
  else do
    let last ← Linked.last 0 Block.next s.blocks walkFuel inode.firstBlock
    let (block, s) ← allocBlock s
    let b ← fetch (s.blocks last)
    pure (s.setBlock last { b with next := block })

/-- The growth step of `fs_create`. -/
def growIfFull (s : Fs σ) (p : Nat) (parent : Inode) : Run (Fs σ) :=
  if parent.inodeSize % direntsPerBlock = 0 then appendBlock s p else pure s

def fsCreate (s : Fs σ) (parentIno : Nat) (name : List UInt8) (inodeType : UInt8) :
    Run (Nat × Fs σ) := do
  let p ← findInode s parentIno
  if p = 0 then pure (invalidIno, s)
  else
    let parent ← fetch (s.inodes p)
    if parent.inodeType ≠ 2 then pure (invalidIno, s)
    else
      let len ← strlen name
      let first ← fetch name[0]?
      if len ≥ maxSize ∨ first = 0 then pure (invalidIno, s)
      else
        let scan ← scanDirents s parent (fun entry => nameMatchesSingle entry name)
          (intTrips parent.inodeSize) 0 none
        match scan with
        | .exhausted _ =>
            -- the object is in the list before its entry has a place
            let (ino, s) ← allocInode s inodeType
            let s ← growIfFull s p parent
            let s ← linkDirent s p ino name
            pure (ino, s)
        | _ => pure (invalidIno, s)

/-- The growth loop of `fs_write`, from a chain of `blocks` blocks. -/
def growChain (need p : Nat) : Nat → Nat → Fs σ → Run (Fs σ)
  | 0, blocks, s => if need > payloadSize * blocks then throw .hang else pure s
  | fuel + 1, blocks, s =>
      if need > payloadSize * blocks then do
        let s ← appendBlock s p
        growChain need p fuel (blocks + 1) s
      else pure s

/-- `buf` is the source object, `none` for a null pointer. -/
def fsWrite (s : Fs σ) (ino offset len : Nat) (buf : Option (List UInt8)) : Run (Int × Fs σ) :=
  match buf with
  | none => pure (-1, s)
  | some src => do
      let p ← findInode s ino
      if p = 0 then pure (-1, s)
      else
        let subject ← fetch (s.inodes p)
        if subject.inodeType ≠ 1 then pure (-1, s)
        else
          -- the end wraps, the copy loop behind does not see it
          let need := (offset + len) % 2 ^ 64
          let count ← Linked.count 0 Block.next s.blocks walkFuel subject.firstBlock
          let s ← growChain need p walkFuel count s
          storeRange s p offset len src

end KehindeKernel
