import KehindeKernel.Pmm
import KehindeKernel.Lib.Outcome

/-!
Page tables of `mmu.cpp`, `mmu_pi3.cpp` and `mmu_pi5.cpp`. Tables are reached by
physical address, so `mem` reads the 512 words of the frame at an address; the
kernel writes no other physical word of these frames. `log` records what the
hardware sees of an edit: stores to live descriptors, barriers and TLB
invalidations. The MAIR, TCR, TTBR0 and SCTLR writes of `mmu_init` are left out.
-/

namespace KehindeKernel

open Outcome

/-- Bits [47:12] of a descriptor. -/
def addrMask : Nat := 0x0000FFFFFFFFF000

inductive Event where
  | tableStore (table index descriptor : Nat)
  | leafStore (page descriptor : Nat)
  | dsbIshst
  | tlbi (page : Nat)
  | dsbIsh
  | isb
  deriving DecidableEq, Repr

structure Machine where
  pmm : Pmm
  mem : Nat → Nat → Nat
  l1Table : Nat
  log : List Event

def Machine.emit (m : Machine) (event : Event) : Machine := { m with log := m.log ++ [event] }

def Machine.store (m : Machine) (table index word : Nat) : Machine :=
  { m with mem := Function.update m.mem table (Function.update (m.mem table) index word) }

def l1Index (va : Nat) : Nat := va >>> 30 &&& 0x1FF

def l2Index (va : Nat) : Nat := va >>> 21 &&& 0x1FF

def l3Index (va : Nat) : Nat := va >>> 12 &&& 0x1FF

/-- `_get_or_alloc_table`. The 512 words of a new table are zeroed before the
table is linked. -/
def getOrAllocTable (m : Machine) (table index : Nat) : Nat × Machine :=
  let entry := m.mem table index
  -- one bit is tested here, `translate` and `unmap` test both
  if entry &&& 1 ≠ 0 then (entry &&& addrMask, m)
  else
    let frame := allocFrame m.pmm
    let m := { m with pmm := frame.2 }
    let child := frame.1
    if child = 0 then (0, m)
    else
      let m := { m with mem := Function.update m.mem child
                          (fun i => if i < 512 then 0 else m.mem child i) }
      (child, (m.store table index (child ||| 0b11)).emit (.tableStore table index (child ||| 0b11)))

/-- One trip of the loop in `map`; `false` is the early return. -/
def mapPage (m : Machine) (currentVa currentPhys flags : Nat) : Machine × Bool :=
  let l2 := getOrAllocTable m m.l1Table (l1Index currentVa)
  if l2.1 = 0 then (l2.2, false)
  else
    let l3 := getOrAllocTable l2.2 l2.1 (l2Index currentVa)
    if l3.1 = 0 then (l3.2, false)
    else
      let word := currentPhys ||| flags ||| 0b11
      ((l3.2.store l3.1 (l3Index currentVa) word).emit (.leafStore (currentVa >>> 12) word), true)

def mapPages (va phys flags : Nat) : Nat → Nat → Machine → Machine × Bool
  | 0, _, m => (m, true)
  | trips + 1, i, m =>
      let page := mapPage m ((va + i * pageSize) % 2 ^ 64) ((phys + i * pageSize) % 2 ^ 64) flags
      if page.2 then mapPages va phys flags trips (i + 1) page.1 else page

def invalidatePages (va : Nat) : Nat → Nat → Machine → Machine
  | 0, _, m => m
  | trips + 1, i, m =>
      invalidatePages va trips (i + 1) (m.emit (.tlbi ((va + i * pageSize) % 2 ^ 64 >>> 12)))

def map (m : Machine) (va phys size flags : Nat) : Machine :=
  let numPages := size / pageSize
  let edited := mapPages va phys flags (intTrips numPages) 0 (m.emit .dsbIshst)
  if edited.2 then
    ((invalidatePages va (intTrips numPages) 0 edited.1).emit .dsbIsh).emit .isb
  else edited.1

def translate (m : Machine) (virt : Nat) : Nat :=
  let l1Desc := m.mem m.l1Table (l1Index virt)
  if l1Desc &&& 0b11 ≠ 0b11 then 2 ^ 64 - 1
  else
    let l2Table := l1Desc &&& addrMask
    let l2Desc := m.mem l2Table (l2Index virt)
    if l2Desc &&& 0b11 ≠ 0b11 then 2 ^ 64 - 1
    else
      let l3Table := l2Desc &&& addrMask
      let l3Desc := m.mem l3Table (l3Index virt)
      if l3Desc &&& 0b11 ≠ 0b11 then 2 ^ 64 - 1
      else (l3Desc &&& addrMask) ||| (virt &&& 0xFFF)

/-- `_table_is_empty` -/
def tableIsEmpty (m : Machine) (table : Nat) : Bool :=
  (List.range 512).all fun i => m.mem table i == 0

/-- One trip of the loop in `unmap`; `false` is the early return. -/
def unmapPage (m : Machine) (currentVa : Nat) : Machine × Bool :=
  let l1Desc := m.mem m.l1Table (l1Index currentVa)
  if l1Desc &&& 0b11 ≠ 0b11 then (m, false)
  else
    let l2Table := l1Desc &&& addrMask
    let l2Desc := m.mem l2Table (l2Index currentVa)
    if l2Desc &&& 0b11 ≠ 0b11 then (m, false)
    else
      let l3Table := l2Desc &&& addrMask
      let m := (m.store l3Table (l3Index currentVa) 0).emit (.leafStore (currentVa >>> 12) 0)
      let m :=
        if tableIsEmpty m l3Table then
          -- the L3 slot is zeroed again; the L2 descriptor keeps pointing here
          let m := (m.store l3Table (l3Index currentVa) 0).emit (.leafStore (currentVa >>> 12) 0)
          { m with pmm := freeFrame m.pmm l3Table }
        else m
      let m :=
        if tableIsEmpty m l2Table then
          let m := (m.store l2Table (l2Index currentVa) 0).emit
            (.tableStore l2Table (l2Index currentVa) 0)
          { m with pmm := freeFrame m.pmm l2Table }
        else m
      (m, true)

def unmapPages (va : Nat) : Nat → Nat → Machine → Machine × Bool
  | 0, _, m => (m, true)
  | trips + 1, i, m =>
      let page := unmapPage m ((va + i * pageSize) % 2 ^ 64)
      if page.2 then unmapPages va trips (i + 1) page.1 else page

def unmap (m : Machine) (va size : Nat) : Machine :=
  let numPages := size / pageSize
  let edited := unmapPages va (intTrips numPages) 0 (m.emit .dsbIshst)
  if edited.2 then
    ((invalidatePages va (intTrips numPages) 0 edited.1).emit .dsbIsh).emit .isb
  else edited.1

def pteNormalRw : Nat := 0x703

def pteDeviceRw : Nat := 0x707

/-- What the two copies of `mmu_init` and `board.h` disagree on. -/
structure Board where
  peripheralBase : Nat
  peripheralSize : Nat
  localPeripheralBase : Nat
  localPeripheralSize : Nat

def boardPi3 : Board where
  peripheralBase := 0x3F000000
  peripheralSize := 0x01000000
  localPeripheralBase := 0x40000000
  localPeripheralSize := 0x00001000

def boardPi5 : Board where
  peripheralBase := 0x1C00000000
  peripheralSize := 0x410000
  localPeripheralBase := 0x107FFF8000
  localPeripheralSize := 0x8000

/-- `mmu_init` up to the assignment of `l1_table`: `pmm_init`, one frame for the
top table, zeroed. Without a frame it prints a message and spins. -/
def installL1Table (kernelEnd : Nat) (memory : Nat → BitVec 64) (mem : Nat → Nat → Nat) :
    Run Machine :=
  let frame := allocFrame (pmmInit kernelEnd memory)
  if frame.1 = 0 then throw .hang
  else
    pure { pmm := frame.2
           mem := Function.update mem frame.1 (fun i => if i < 512 then 0 else mem frame.1 i)
           l1Table := frame.1
           log := [] }

def mmuInit (board : Board) (kernelEnd : Nat) (memory : Nat → BitVec 64)
    (mem : Nat → Nat → Nat) : Run Machine := do
  let m ← installL1Table kernelEnd memory mem
  -- the first three ranges meet: boot code, kernel image with the bitmap, frames
  let start := m.pmm.physMemStart
  let m := map m 0x00000000 0x00000000 0x00080000 pteNormalRw
  let m := map m 0x00080000 0x00080000 (sub64 start 0x80000) pteNormalRw
  let m := map m start start (sub64 physMemEnd start) pteNormalRw
  let m := map m board.peripheralBase board.peripheralBase board.peripheralSize pteDeviceRw
  pure (map m board.localPeripheralBase board.localPeripheralBase board.localPeripheralSize
    pteDeviceRw)

end KehindeKernel
