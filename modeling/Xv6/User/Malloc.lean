import Xv6.Lib.Run
import Xv6.Lib.Thread
import Xv6.Param

/-!
# The allocator of user programs

`malloc` and `free` of `umalloc.c`. Memory is seen through the headers in it: an address has a link and a size, which
mean something only where the allocator put a header. Addresses and sizes are numbers, since neighbouring blocks lie
together below the end of memory and no sum of their sizes overflows; the rounding of a request does wrap. The two
searches are loops without a bound, so calls take a number of turns after which they are given up.
-/

namespace Xv6.Malloc

open Lib
open Function (update)

/-- Bytes of a header, the unit of allocation. -/
abbrev HEADER : ℕ := 8

/-- A piece of memory: where its header is, and its size in headers, its own included. -/
structure Block where
  addr : ℕ
  size : ℕ
  deriving DecidableEq, Repr

/-- Where the memory of a block ends. -/
def Block.stop (b : Block) : ℕ := b.addr + HEADER * b.size

/-- The memory of the allocator. -/
structure Heap where
  ptr : ℕ → ℕ
  size : ℕ → ℕ
  /-- Zero before the first call. -/
  freep : ℕ
  /-- What `sbrk` gave to the program so far. -/
  granted : List Block
  /-- How often `sbrk` was called. -/
  sbrks : ℕ

/-- What the allocator depends on: where the static header is, and the answers of `sbrk`, which may depend on how often
it was called and on what it gave before. It gives aligned memory above all of that, or none. -/
structure Arena where
  base : ℕ
  sbrk : ℕ → List Block → ℕ → Option ℕ
  base_ne : base ≠ 0
  aligned : ∀ {calls granted bytes p}, sbrk calls granted bytes = some p → HEADER ∣ p
  above_base : ∀ {calls granted bytes p}, sbrk calls granted bytes = some p → base < p
  above : ∀ {calls granted bytes p}, sbrk calls granted bytes = some p → ∀ b ∈ granted, b.stop ≤ p

/-- Where the search of `free` ends: the block belongs between `p` and the next, or at the wrap. -/
def between (h : Heap) (bp p : ℕ) : Bool :=
  (p < bp && bp < h.ptr p) || (h.ptr p ≤ p && (p < bp || bp < h.ptr p))

/-- Join the block with the one after `p`, or link it to that. -/
def joinNext (h : Heap) (bp p : ℕ) : Heap :=
  if bp + HEADER * h.size bp = h.ptr p then
    { h with
      size := update h.size bp (h.size bp + h.size (h.ptr p))
      ptr := update h.ptr bp (h.ptr (h.ptr p)) }
  else { h with ptr := update h.ptr bp (h.ptr p) }

/-- Join the block with `p`, or link `p` to it. -/
def joinPrev (h : Heap) (bp p : ℕ) : Heap :=
  if p + HEADER * h.size p = bp then
    { h with
      size := update h.size p (h.size p + h.size bp)
      ptr := update h.ptr p (h.ptr bp) }
  else { h with ptr := update h.ptr p bp }

def free (fuel : ℕ) (h : Heap) (ap : ℕ) : Option Heap :=
  let bp := ap - HEADER
  match walk h.ptr (between h bp) fuel h.freep with
  | none => none
  | some p => some { joinPrev (joinNext h bp p) bp p with freep := p }

/-- The memory `morecore` asks for, in headers. -/
def moreUnits (nu : ℕ) : ℕ := if nu < 4096 then 4096 else nu

def morecore (arena : Arena) (fuel : ℕ) (h : Heap) (nu : ℕ) : Option (ℕ × Heap) :=
  let nu := moreUnits nu
  let bytes := nu * HEADER % 2 ^ 32
  match arena.sbrk h.sbrks h.granted bytes with
  | none => some (0, { h with sbrks := h.sbrks + 1 })
  | some hp =>
    let h := { h with
      sbrks := h.sbrks + 1
      granted := ⟨hp, bytes / HEADER⟩ :: h.granted
      size := update h.size hp nu }
    match free fuel h (hp + HEADER) with
    | none => none
    | some h => some (h.freep, h)

/-- Take the block `p`, which is large enough, or the end of it. -/
def take (h : Heap) (nunits prevp p : ℕ) : ℕ × Heap :=
  if h.size p = nunits then
    (p + HEADER, { h with ptr := update h.ptr prevp (h.ptr p), freep := prevp })
  else
    let size := update h.size p (h.size p - nunits)
    let q := p + HEADER * size p
    (q + HEADER, { h with size := update size q nunits, freep := prevp })

/-- The search of `malloc`. -/
def mallocLoop (arena : Arena) (nunits : ℕ) : ℕ → Heap → ℕ → ℕ → Option (ℕ × Heap)
  | 0, _, _, _ => none
  | fuel + 1, h, prevp, p =>
    if nunits ≤ h.size p then some (take h nunits prevp p)
    else if p = h.freep then
      match morecore arena fuel h nunits with
      | none => none
      | some (0, h) => some (0, h)
      | some (p, h) => mallocLoop arena nunits fuel h p (h.ptr p)
    else mallocLoop arena nunits fuel h p (h.ptr p)

/-- A request in headers, one for the header of the block included. -/
def units (nbytes : ℕ) : ℕ := (nbytes + HEADER - 1) % 2 ^ 32 / HEADER + 1

/-- The list of free blocks before the first call. -/
def Heap.begin (h : Heap) (base : ℕ) : Heap :=
  { h with ptr := update h.ptr base base, freep := base, size := update h.size base 0 }

def malloc (arena : Arena) (fuel : ℕ) (h : Heap) (nbytes : ℕ) : Option (ℕ × Heap) :=
  let nunits := units nbytes
  let h := if h.freep = 0 then h.begin arena.base else h
  mallocLoop arena nunits fuel h h.freep (h.ptr h.freep)

/-- A program with its memory, and the blocks it has from `malloc`. -/
structure State where
  heap : Heap
  live : List Block

/-- A program starts with the static header and the rest of its memory in any state, and `freep` null. -/
def State.init (ptr size : ℕ → ℕ) : State := ⟨⟨ptr, size, 0, [], 0⟩, []⟩

/-- The bytes of a block that belong to the program. -/
def Block.Payload (b : Block) (x : ℕ) : Prop := b.addr + HEADER ≤ x ∧ x < b.stop

instance (b : Block) (x : ℕ) : Decidable (b.Payload x) := inferInstanceAs (Decidable (_ ∧ _))

inductive Action
  /-- `malloc` returns after at most so many turns. -/
  | malloc (fuel nbytes : ℕ)
  /-- `free` of a block the program has returns after at most so many turns. -/
  | free (fuel : ℕ) (b : Block)
  /-- The program writes into its blocks. -/
  | write (ptr size : ℕ → ℕ)

/-- What the memory holds after the program wrote into its blocks. -/
def written (live : List Block) (old new : ℕ → ℕ) (x : ℕ) : ℕ := if ∃ b ∈ live, b.Payload x then new x else old x

/-- Requests whose rounded size in bytes stays below the half of memory. -/
def Small (nbytes : ℕ) : Prop := HEADER * ((nbytes + HEADER - 1) / HEADER + 1) < 2 ^ 31

instance (nbytes : ℕ) : Decidable (Small nbytes) := inferInstanceAs (Decidable (_ < _))

def step (arena : Arena) (s : State) : Action → Option (Except Panic State)
  | .malloc fuel nbytes =>
    if Small nbytes then
      (malloc arena fuel s.heap nbytes).map fun (r, h) =>
        .ok ⟨h, if r = 0 then s.live else ⟨r - HEADER, units nbytes⟩ :: s.live⟩
    else none
  | .free fuel b =>
    if b ∈ s.live then (free fuel s.heap (b.addr + HEADER)).map fun h => .ok ⟨h, s.live.erase b⟩ else none
  | .write ptr size =>
    some (.ok { s with heap := { s.heap with
      ptr := written s.live s.heap.ptr ptr
      size := written s.live s.heap.size size } })

end Xv6.Malloc
