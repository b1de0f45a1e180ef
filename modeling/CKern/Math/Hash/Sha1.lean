import CKern.Library.Pieces
import CKern.Library.SecureHash

/-!
# The hash value SHA-1 (`math/hash/sha1.c`)

* `update_sha1hash`: one block of 64 bytes, read byte by byte or word by word after its address; the
  collected block of the object is the memory of the message schedule.
* `calculate_sha1hash`, `value_sha1hash`: the data piece by piece, and its value.
* `feed`: the pieces of a caller, each one in a buffer of its own at any address.
* `hashes_iff`: cutting the data does not matter exactly if there are less than `2 ^ 61` bytes.
-/

namespace CKern
namespace Sha1

open Pieces SecureHash

/-! ## Words in memory -/

/-- The order of the bytes of a word in memory. -/
inductive ByteOrder
  | little
  | big
  deriving DecidableEq, Repr

/-- The word that four bytes in memory are. -/
def ofMemory : ByteOrder → List UInt8 → UInt32
  | .little, l => word l.reverse
  | .big, l => word l

/-- The bytes of a word in memory. -/
def toMemory : ByteOrder → UInt32 → List UInt8
  | .little, w => (bytes w).reverse
  | .big, w => bytes w

def ntohl (o : ByteOrder) (w : UInt32) : UInt32 := word (toMemory o w)

def htonl (o : ByteOrder) (w : UInt32) : UInt32 := ofMemory o (bytes w)

theorem length_toMemory (o : ByteOrder) (w : UInt32) : (toMemory o w).length = 4 := by
  cases o <;> rfl

theorem ofMemory_toMemory (o : ByteOrder) (w : UInt32) : ofMemory o (toMemory o w) = w := by
  cases o with
  | little => rw [toMemory, ofMemory, List.reverse_reverse, word_bytes]
  | big => exact word_bytes w

theorem toMemory_ofMemory (o : ByteOrder) {l : List UInt8} (h : l.length = 4) :
    toMemory o (ofMemory o l) = l := by
  cases o with
  | little =>
    rw [ofMemory, toMemory, bytes_word (by rw [List.length_reverse, h]), List.reverse_reverse]
  | big => exact bytes_word h

theorem ntohl_ofMemory (o : ByteOrder) {l : List UInt8} (h : l.length = 4) :
    ntohl o (ofMemory o l) = word l := by
  rw [ntohl, toMemory_ofMemory o h]

theorem toMemory_htonl (o : ByteOrder) (w : UInt32) : toMemory o (htonl o w) = bytes w :=
  toMemory_ofMemory o (length_bytes w)

/-! ## The object -/

/-- The object `sha1_hash_t`.  Its member `block` lies in the memory. -/
structure Sha1Hash where
  datalen : UInt64
  h : Vector UInt32 5
  mem : Memory

inductive Errno
  | EOVERFLOW
  deriving DecidableEq, Repr

/-! ## One block -/

def F1 (b c d : UInt32) : UInt32 := d ^^^ (b &&& (c ^^^ d))
def F2 (b c d : UInt32) : UInt32 := b ^^^ c ^^^ d
def F3 (b c d : UInt32) : UInt32 := (b &&& c) ||| (d &&& (b ||| c))
def F4 (b c d : UInt32) : UInt32 := b ^^^ c ^^^ d

def K1 : UInt32 := 0x5A827999
def K2 : UInt32 := 0x6ED9EBA1
def K3 : UInt32 := 0x8F1BBCDC
def K4 : UInt32 := 0xCA62C1D6

def ROTATE_LEFT (v nr : UInt32) : UInt32 := v <<< nr ||| v >>> (32 - nr)

/-- The function and the constant of the line `i` of the unrolled loop. -/
def line (i : ℕ) : (UInt32 → UInt32 → UInt32 → UInt32) × UInt32 :=
  if i < 20 then (F1, K1) else if i < 40 then (F2, K2) else if i < 60 then (F3, K3) else (F4, K4)

/-- Which of the variables `a`, `b`, `c`, `d`, `e` is the parameter `j` of `STEP` in the line `i`.
Line 0 has `a,b,c,d,e`, line 1 has `e,a,b,c,d` and so on. -/
def arg (i j : ℕ) : Fin 5 := ⟨(j + 4 * i) % 5, Nat.mod_lt _ (by decide)⟩

/-- The macro `STEP`, with its variables in `v`. -/
def STEP (i : ℕ) (v : Vector UInt32 5) (value : UInt32) : Vector UInt32 5 :=
  let (f, k) := line i
  let v := v.set (arg i 4)
    (v[arg i 4] + (ROTATE_LEFT v[arg i 0] 5 + f v[arg i 1] v[arg i 2] v[arg i 3] + k + value))
  v.set (arg i 1) (ROTATE_LEFT v[arg i 1] 30)

section

variable (o : ByteOrder) (block : ℕ)

/-- `w[i]`, with `w` the member `block` as an array of words. -/
def getw (mem : Memory) (i : ℕ) : UInt32 := ofMemory o (mem.read (block + 4 * i) 4)

def setw (mem : Memory) (i : ℕ) (value : UInt32) : Memory :=
  mem.write (block + 4 * i) (toMemory o value)

/-- The macro `read_value` in its three forms: the bytes of an address that is not aligned, the
words of an aligned one, and the schedule. -/
def read_value (buffer i : ℕ) (mem : Memory) : UInt32 × Memory :=
  if i < 16 then
    let next := buffer + 4 * i
    let value :=
      if buffer % 4 ≠ 0 then
        (((mem next).toUInt32 <<< 8 ||| (mem (next + 1)).toUInt32) <<< 8 |||
          (mem (next + 2)).toUInt32) <<< 8 ||| (mem (next + 3)).toUInt32
      else ntohl o (ofMemory o (mem.read next 4))
    (value, setw o block mem i value)
  else
    let value := getw o block mem ((i - 16) % 16) ^^^ getw o block mem ((i - 14) % 16) ^^^
      getw o block mem ((i - 8) % 16) ^^^ getw o block mem ((i - 3) % 16)
    let value := ROTATE_LEFT value 1
    (value, setw o block mem (i % 16) value)

/-- The first `i` lines of the unrolled loop. -/
def steps (buffer : ℕ) : ℕ → Vector UInt32 5 × Memory → Vector UInt32 5 × Memory
  | 0, s => s
  | i + 1, s =>
    let s := steps buffer i s
    let r := read_value o block buffer i s.2
    (STEP i s.1 r.1, r.2)

/-- `update_sha1hash`: the block of 64 bytes at the address `buffer`. -/
def update_sha1hash (sha1 : Sha1Hash) (buffer : ℕ) : Sha1Hash :=
  let s := steps o block buffer 80 (sha1.h, sha1.mem)
  { sha1 with h := sha1.h.zipWith (· + ·) s.1, mem := s.2 }

/-! ## The interface -/

def init_sha1hash (sha1 : Sha1Hash) : Sha1Hash :=
  { sha1 with datalen := 0, h := #v[0x67452301, 0xEFCDAB89, 0x98BADCFE, 0x10325476, 0xC3D2E1F0] }

def memcpy (mem : Memory) (dest src n : ℕ) : Memory := mem.write dest (mem.read src n)

/-- The loop over the whole blocks of the buffer. -/
def blocks (sha1 : Sha1Hash) (next datasize : ℕ) : Sha1Hash × ℕ × ℕ :=
  if 64 ≤ datasize then blocks (update_sha1hash o block sha1 next) (next + 64) (datasize - 64)
  else (sha1, next, datasize)
termination_by datasize

/-- The block with `blocksize` collected bytes is completed, if there are any. -/
def first (sha1 : Sha1Hash) (blocksize datasize buffer : ℕ) : Sha1Hash × ℕ × ℕ :=
  if blocksize ≠ 0 then
    let missing_size := 64 - blocksize
    let mem := memcpy sha1.mem (block + blocksize) buffer missing_size
    (update_sha1hash o block { sha1 with mem } block, buffer + missing_size, datasize - 64)
  else (sha1, buffer, datasize)

/-- The part of `calculate_sha1hash` behind its check, with `blocksize` bytes collected already. -/
def collect (sha1 : Sha1Hash) (blocksize buffer_size buffer : ℕ) : Sha1Hash :=
  let datasize := blocksize + buffer_size
  if datasize < 64 then
    { sha1 with mem := memcpy sha1.mem (block + blocksize) buffer buffer_size }
  else
    let s := first o block sha1 blocksize datasize buffer
    let s := blocks o block s.1 s.2.1 s.2.2
    if s.2.2 ≠ 0 then { s.1 with mem := memcpy s.1.mem block s.2.1 s.2.2 } else s.1

/-- `calculate_sha1hash`: the length is added before it is checked. -/
def calculate_sha1hash (sha1 : Sha1Hash) (buffer_size : UInt64) (buffer : ℕ) :
    Sha1Hash × Option Errno :=
  let sha1 := if sha1.datalen = -1 then init_sha1hash sha1 else sha1
  let blocksize := (sha1.datalen &&& 63).toNat
  let sha1 := { sha1 with datalen := sha1.datalen + buffer_size }
  if buffer_size &&& ~~~((-1 : UInt64) >>> 1) ≠ 0 ∨ sha1.datalen &&& 0xe000000000000000 ≠ 0 then
    (sha1, some .EOVERFLOW)
  else (collect o block sha1 blocksize buffer_size.toNat buffer, none)

/-- The bytes of the member `h`. -/
def hashvalue (sha1 : Sha1Hash) : List UInt8 := sha1.h.toList.flatMap (toMemory o)

/-- `value_sha1hash` -/
def value_sha1hash (sha1 : Sha1Hash) : Sha1Hash × List UInt8 :=
  let sha1 :=
    if sha1.datalen ≠ -1 then
      let blocksize := (sha1.datalen &&& 63).toNat
      let sha1 := { sha1 with mem := sha1.mem.write (block + blocksize) [0x80] }
      let blocksize := blocksize + 1
      let (sha1, blocksize) :=
        if 56 < blocksize then
          let mem := sha1.mem.write (block + blocksize) (List.replicate (64 - blocksize) 0)
          (update_sha1hash o block { sha1 with mem } block, 0)
        else (sha1, blocksize)
      let mem := sha1.mem.write (block + blocksize) (List.replicate (56 - blocksize) 0)
      let mem := setw o (block + 56) mem 0 (htonl o (sha1.datalen >>> 29).toUInt32)
      let mem := setw o (block + 56) mem 1 (htonl o (sha1.datalen <<< 3).toUInt32)
      let sha1 := update_sha1hash o block { sha1 with mem } block
      { sha1 with h := sha1.h.map (htonl o), datalen := -1 }
    else sha1
  (sha1, hashvalue o sha1)

end

/-! ## One block is one step of the definition -/

theorem F1_eq (b c d : UInt32) : F1 b c d = (b &&& c) ^^^ (~~~b &&& d) := by
  refine UInt32.toBitVec_inj.mp (BitVec.eq_of_getElem_eq fun i hi => ?_)
  simp only [F1, UInt32.toBitVec_xor, UInt32.toBitVec_and, UInt32.toBitVec_not, BitVec.getElem_xor,
    BitVec.getElem_and, BitVec.getElem_not]
  cases b.toBitVec[i] <;> cases c.toBitVec[i] <;> cases d.toBitVec[i] <;> rfl

theorem F3_eq (b c d : UInt32) : F3 b c d = (b &&& c) ^^^ (b &&& d) ^^^ (c &&& d) := by
  refine UInt32.toBitVec_inj.mp (BitVec.eq_of_getElem_eq fun i hi => ?_)
  simp only [F3, UInt32.toBitVec_xor, UInt32.toBitVec_and, UInt32.toBitVec_or, BitVec.getElem_xor,
    BitVec.getElem_and, BitVec.getElem_or]
  cases b.toBitVec[i] <;> cases c.toBitVec[i] <;> cases d.toBitVec[i] <;> rfl

theorem line_eq (i : ℕ) : line i = (logical i, constant i) := by
  refine Prod.ext (funext fun b => funext fun c => funext fun d => ?_) ?_
  · change (line i).1 b c d = logical i b c d
    rw [line, logical]
    split_ifs
    · exact F1_eq b c d
    · rfl
    · exact F3_eq b c d
    · rfl
  · rw [line, constant]
    split_ifs <;> rfl

theorem arg_ne {i j k : ℕ} (hj : j < 5) (hk : k < 5) (h : j ≠ k) :
    (arg i j : ℕ) ≠ (arg i k : ℕ) := by
  change (j + 4 * i) % 5 ≠ (k + 4 * i) % 5
  omega

theorem arg_succ_zero (i : ℕ) : arg (i + 1) 0 = arg i 4 := by
  refine Fin.ext ?_
  change (0 + 4 * (i + 1)) % 5 = (4 + 4 * i) % 5
  omega

theorem arg_succ_succ (i j : ℕ) : arg (i + 1) (j + 1) = arg i j := by
  refine Fin.ext ?_
  change (j + 1 + 4 * (i + 1)) % 5 = (j + 4 * i) % 5
  omega

/-- The variables `v` of the unrolled loop, as the line `i` names them, are those of the
definition. -/
def Named (i : ℕ) (v u : Vector UInt32 5) : Prop := ∀ (j : ℕ) (_ : j < 5), v.get (arg i j) = u[j]

theorem get_set_self (v : Vector UInt32 5) (k : Fin 5) (x : UInt32) : (v.set k x).get k = x :=
  Vector.getElem_set_self _

theorem get_set_ne (v : Vector UInt32 5) {k l : Fin 5} (h : (k : ℕ) ≠ l) (x : UInt32) :
    (v.set k x).get l = v.get l :=
  Vector.getElem_set_ne _ _ h

theorem STEP_eq {i : ℕ} {v : Vector UInt32 5} {a b c d e : UInt32} (h0 : v[arg i 0] = a)
    (h1 : v[arg i 1] = b) (h2 : v[arg i 2] = c) (h3 : v[arg i 3] = d) (h4 : v[arg i 4] = e)
    (value : UInt32) :
    STEP i v value = (v.set (arg i 4) (e + (rotl 5 a + logical i b c d + constant i +
      value))).set (arg i 1) (rotl 30 b) := by
  have hget : (v.set (arg i 4) (e + (ROTATE_LEFT a 5 + logical i b c d + constant i +
      value)))[arg i 1] = b := by
    rw [← h1]
    exact Vector.getElem_set_ne _ _ (arg_ne (by decide) (by decide) (by decide))
  rw [STEP, line_eq]
  simp only [h0, h1, h2, h3, h4, hget]
  rfl

theorem STEP_named {i : ℕ} {v u : Vector UInt32 5} (h : Named i v u) (value : UInt32) :
    Named (i + 1) (STEP i v value) (round i value u) := by
  have hne : ∀ {j k : ℕ}, j < 5 → k < 5 → j ≠ k → (arg i j : ℕ) ≠ (arg i k : ℕ) := arg_ne
  rw [STEP_eq (h 0 (by decide)) (h 1 (by decide)) (h 2 (by decide)) (h 3 (by decide))
    (h 4 (by decide))]
  intro j hj
  match j, hj with
  | 0, _ =>
    rw [arg_succ_zero, get_set_ne _ (hne (by decide) (by decide) (by decide)), get_set_self]
    change _ = rotl 5 u[0] + logical i u[1] u[2] u[3] + u[4] + constant i + value
    ac_rfl
  | 1, _ =>
    rw [arg_succ_succ, get_set_ne _ (hne (by decide) (by decide) (by decide)),
      get_set_ne _ (hne (by decide) (by decide) (by decide))]
    exact h 0 (by decide)
  | 2, _ =>
    rw [arg_succ_succ, get_set_self]
    rfl
  | 3, _ =>
    rw [arg_succ_succ, get_set_ne _ (hne (by decide) (by decide) (by decide)),
      get_set_ne _ (hne (by decide) (by decide) (by decide))]
    exact h 2 (by decide)
  | 4, _ =>
    rw [arg_succ_succ, get_set_ne _ (hne (by decide) (by decide) (by decide)),
      get_set_ne _ (hne (by decide) (by decide) (by decide))]
    exact h 3 (by decide)

/-! ## The schedule in the member `block` -/

section

variable {o : ByteOrder} {block buffer : ℕ} {mem mem' mem0 : Memory} {blk : List UInt8}

theorem getw_setw_self (o : ByteOrder) (block : ℕ) (mem : Memory) (i : ℕ) (value : UInt32) :
    getw o block (setw o block mem i value) i = value := by
  have hread := mem.read_write (block + 4 * i) (toMemory o value)
  rw [length_toMemory] at hread
  rw [getw, setw, hread, ofMemory_toMemory]

theorem getw_setw_ne (o : ByteOrder) (block : ℕ) (mem : Memory) {i j : ℕ} (h : i ≠ j)
    (value : UInt32) : getw o block (setw o block mem i value) j = getw o block mem j := by
  rw [getw, setw, Memory.read_write_of_disjoint, getw]
  rw [length_toMemory]
  omega

/-- The memory outside of the member `block` is the same. -/
def Frame (block : ℕ) (mem mem' : Memory) : Prop :=
  ∀ a, a < block ∨ block + 64 ≤ a → mem' a = mem a

theorem Frame.refl (block : ℕ) (mem : Memory) : Frame block mem mem := fun _ _ => rfl

theorem Frame.trans {mem'' : Memory} (h : Frame block mem mem') (h' : Frame block mem' mem'') :
    Frame block mem mem'' :=
  fun a ha => (h' a ha).trans (h a ha)

theorem Frame.write {addr : ℕ} {bytes : List UInt8} (mem : Memory) (hle : block ≤ addr)
    (hlt : addr + bytes.length ≤ block + 64) : Frame block mem (mem.write addr bytes) :=
  fun _ ha => mem.write_of_disjoint (by omega)

theorem Frame.setw {i : ℕ} (h : i < 16) (mem : Memory) (value : UInt32) :
    Frame block mem (setw o block mem i value) :=
  Frame.write mem (Nat.le_add_right block _) (by rw [length_toMemory]; omega)

theorem Frame.read {addr n : ℕ} (h : Frame block mem mem')
    (hd : addr + n ≤ block ∨ block + 64 ≤ addr) : mem'.read addr n = mem.read addr n :=
  Memory.read_congr fun a hle hlt => h a (by omega)

/-- What the memory holds before the line `t`: the last 16 words of the schedule, the rest of the
block that is not read yet, and all that it held before. -/
structure Scheduled (o : ByteOrder) (block buffer : ℕ) (blk : List UInt8) (mem0 : Memory) (t : ℕ)
    (mem : Memory) : Prop where
  window : ∀ s, s < t → t ≤ s + 16 → getw o block mem (s % 16) = schedule blk s
  ahead : ∀ s, t ≤ s → s < 16 → mem.read (buffer + 4 * s) 4 = (blk.drop (4 * s)).take 4
  frame : Frame block mem0 mem

theorem Scheduled.setw {t : ℕ} (h : Scheduled o block buffer blk mem0 t mem)
    (hb : buffer = block ∨ buffer + 64 ≤ block ∨ block + 64 ≤ buffer) :
    Scheduled o block buffer blk mem0 (t + 1) (setw o block mem (t % 16) (schedule blk t)) where
  window s hlt hle := by
    rcases Nat.lt_succ_iff_lt_or_eq.mp hlt with hs | rfl
    · rw [getw_setw_ne o block mem (by omega), h.window s hs (by omega)]
    · exact getw_setw_self o block mem _ _
  ahead s hle hlt := by
    rw [← h.ahead s (Nat.le_of_succ_le hle) hlt, Sha1.setw, Memory.read_write_of_disjoint]
    rw [length_toMemory]
    omega
  frame := h.frame.trans (Frame.setw (Nat.mod_lt t (by decide)) mem _)

theorem Scheduled.read_value {t : ℕ} (h : Scheduled o block buffer blk mem0 t mem) :
    read_value o block buffer t mem =
      (schedule blk t, Sha1.setw o block mem (t % 16) (schedule blk t)) := by
  rw [Sha1.read_value]
  split_ifs with hlt hal
  · have hw : schedule blk t = word (mem.read (buffer + 4 * t) 4) := by
      rw [schedule_of_lt hlt, h.ahead t le_rfl hlt]
    rw [Nat.mod_eq_of_lt hlt, hw]
    rfl
  · have hw : schedule blk t = word (mem.read (buffer + 4 * t) 4) := by
      rw [schedule_of_lt hlt, h.ahead t le_rfl hlt]
    have hvalue : ntohl o (ofMemory o (mem.read (buffer + 4 * t) 4)) = schedule blk t := by
      rw [hw, ntohl_ofMemory o (Memory.length_read mem _ 4)]
    dsimp only
    rw [Nat.mod_eq_of_lt hlt, hvalue]
  · have hle : 16 ≤ t := Nat.le_of_not_lt hlt
    rw [h.window (t - 16) (by omega) (by omega), h.window (t - 14) (by omega) (by omega),
      h.window (t - 8) (by omega) (by omega), h.window (t - 3) (by omega) (by omega)]
    have hw : ROTATE_LEFT (schedule blk (t - 16) ^^^ schedule blk (t - 14) ^^^
        schedule blk (t - 8) ^^^ schedule blk (t - 3)) 1 = schedule blk t := by
      rw [schedule_of_le hle]
      have hxor : schedule blk (t - 16) ^^^ schedule blk (t - 14) ^^^ schedule blk (t - 8) ^^^
          schedule blk (t - 3) = schedule blk (t - 3) ^^^ schedule blk (t - 8) ^^^
            schedule blk (t - 14) ^^^ schedule blk (t - 16) := by
        ac_rfl
      rw [hxor]
      rfl
    dsimp only
    rw [hw]

/-- **The run of the unrolled loop**: the variables and the memory behind its first `t` lines. -/
theorem steps_spec (o : ByteOrder) (hb : buffer = block ∨ buffer + 64 ≤ block ∨ block + 64 ≤ buffer)
    (h : Vector UInt32 5) (mem : Memory) (t : ℕ) :
    Named t (steps o block buffer t (h, mem)).1 (rounds (mem.read buffer 64) h t) ∧
      Scheduled o block buffer (mem.read buffer 64) mem t (steps o block buffer t (h, mem)).2 := by
  induction t with
  | zero =>
    refine ⟨fun j hj => ?_, fun s hs => absurd hs (Nat.not_lt_zero s), fun s _ hs => ?_,
      Frame.refl block mem⟩
    · have harg : arg 0 j = ⟨j, hj⟩ := Fin.ext (Nat.mod_eq_of_lt hj)
      rw [harg]
      rfl
    · rw [Memory.drop_read, Memory.take_read _ _ (by omega)]
      rfl
  | succ t ih =>
    obtain ⟨hnamed, hsched⟩ := ih
    rw [steps]
    dsimp only
    rw [hsched.read_value]
    exact ⟨STEP_named hnamed _, hsched.setw hb⟩

theorem update_sha1hash_spec (o : ByteOrder) (sha1 : Sha1Hash)
    (hb : buffer = block ∨ buffer + 64 ≤ block ∨ block + 64 ≤ buffer) :
    (update_sha1hash o block sha1 buffer).h = compress sha1.h (sha1.mem.read buffer 64) ∧
      (update_sha1hash o block sha1 buffer).datalen = sha1.datalen ∧
      Frame block sha1.mem (update_sha1hash o block sha1 buffer).mem := by
  obtain ⟨hnamed, hsched⟩ := steps_spec o hb sha1.h sha1.mem 80
  refine ⟨?_, rfl, hsched.frame⟩
  have hv : (steps o block buffer 80 (sha1.h, sha1.mem)).1 =
      rounds (sha1.mem.read buffer 64) sha1.h 80 := by
    refine Vector.ext fun j hj => ?_
    have harg : arg 80 j = ⟨j, hj⟩ := Fin.ext (by change (j + 4 * 80) % 5 = j; omega)
    have hget := hnamed j hj
    rw [harg] at hget
    exact hget
  rw [compress, ← hv]
  rfl

end

/-! ## The pieces of the data -/

theorem and_topbits_eq_zero {x mask : UInt64} {k n : ℕ} (hmask : mask.toNat = (2 ^ k - 1) <<< n)
    (hkn : k + n = 64) : x &&& mask = 0 ↔ x.toNat < 2 ^ n := by
  have hand : x.toNat &&& (2 ^ k - 1) <<< n = (x.toNat >>> n &&& (2 ^ k - 1)) <<< n := by
    refine Nat.eq_of_testBit_eq fun i => ?_
    simp only [Nat.testBit_and, Nat.testBit_shiftLeft, Nat.testBit_shiftRight]
    by_cases hi : n ≤ i
    · simp [hi]
    · simp [hi]
  have hlt : x.toNat / 2 ^ n < 2 ^ k := by
    rw [Nat.div_lt_iff_lt_mul (Nat.two_pow_pos n), ← Nat.pow_add, hkn]
    exact x.toNat_lt
  rw [← UInt64.toNat_inj, UInt64.toNat_and, hmask, hand, Nat.and_two_pow_sub_one_eq_mod,
    Nat.shiftRight_eq_div_pow, Nat.mod_eq_of_lt hlt, Nat.shiftLeft_eq]
  have hzero : (0 : UInt64).toNat = 0 := rfl
  rw [hzero, Nat.mul_eq_zero, or_iff_left (Nat.two_pow_pos n).ne',
    Nat.div_eq_zero_iff_lt (Nat.two_pow_pos n)]

theorem topbit_eq_zero (x : UInt64) : x &&& ~~~((-1 : UInt64) >>> 1) = 0 ↔ x.toNat < 2 ^ 63 :=
  and_topbits_eq_zero (k := 1) rfl rfl

theorem topbits_eq_zero (x : UInt64) : x &&& 0xe000000000000000 = 0 ↔ x.toNat < 2 ^ 61 :=
  and_topbits_eq_zero (k := 3) rfl rfl

theorem toNat_and_63 (x : UInt64) : (x &&& 63).toNat = x.toNat % 64 := by
  rw [UInt64.toNat_and]
  exact Nat.and_two_pow_sub_one_eq_mod x.toNat 6

section

variable {o : ByteOrder} {block : ℕ}

/-- The object has taken in the bytes `m`: the whole blocks are in the hash value, the rest is
collected. -/
structure Absorbed (block : ℕ) (sha1 : Sha1Hash) (m : List UInt8) : Prop where
  datalen : sha1.datalen.toNat = m.length
  lt : m.length < 2 ^ 61
  h : sha1.h = foldBlocks compress 64 initial m
  collected : sha1.mem.read block (m.length % 64) = rest 64 m

theorem Absorbed.datalen_ne {sha1 : Sha1Hash} {m : List UInt8} (h : Absorbed block sha1 m) :
    sha1.datalen ≠ -1 := by
  intro heq
  have hlen := h.datalen
  rw [heq] at hlen
  have hneg : (-1 : UInt64).toNat = 2 ^ 64 - 1 := rfl
  have hlt := h.lt
  omega

theorem Absorbed.blocksize {sha1 : Sha1Hash} {m : List UInt8} (h : Absorbed block sha1 m) :
    (sha1.datalen &&& 63).toNat = m.length % 64 := by
  rw [toNat_and_63, h.datalen]

theorem init_absorbed (sha1 : Sha1Hash) : Absorbed block (init_sha1hash sha1) [] where
  datalen := rfl
  lt := by decide
  h := rfl
  collected := rfl

theorem blocks_spec (o : ByteOrder) (sha1 : Sha1Hash) {next n : ℕ}
    (hd : next + n ≤ block ∨ block + 64 ≤ next) :
    (blocks o block sha1 next n).1.h = foldBlocks compress 64 sha1.h (sha1.mem.read next n) ∧
      (blocks o block sha1 next n).1.datalen = sha1.datalen ∧
      Frame block sha1.mem (blocks o block sha1 next n).1.mem ∧
      (blocks o block sha1 next n).2 = (next + n / 64 * 64, n % 64) := by
  induction n using Nat.strong_induction_on generalizing sha1 next with
  | _ n ih =>
    rw [blocks]
    split_ifs with hle
    · obtain ⟨hh, hlen, hframe⟩ := update_sha1hash_spec o sha1
        (show next = block ∨ next + 64 ≤ block ∨ block + 64 ≤ next by omega)
      obtain ⟨hh', hlen', hframe', hplace⟩ := ih (n - 64) (by omega)
        (update_sha1hash o block sha1 next) (show next + 64 + (n - 64) ≤ block ∨ _ by omega)
      refine ⟨?_, hlen'.trans hlen, hframe.trans hframe', ?_⟩
      · rw [hh', hh, hframe.read (by omega), ← Memory.drop_read,
          ← Memory.take_read sha1.mem next hle,
          ← foldBlocks_of_le (by decide) (by rw [Memory.length_read]; exact hle)]
      · rw [hplace]
        refine Prod.ext ?_ ?_
        · change next + 64 + (n - 64) / 64 * 64 = next + n / 64 * 64
          omega
        · change (n - 64) % 64 = n % 64
          omega
    · have hlt : n < 64 := Nat.lt_of_not_le hle
      refine ⟨?_, rfl, Frame.refl block _, ?_⟩
      · rw [foldBlocks_of_lt (by rw [Memory.length_read]; exact hlt)]
      · rw [Nat.div_eq_of_lt hlt, Nat.mod_eq_of_lt hlt, Nat.zero_mul, Nat.add_zero]

theorem memcpy_frame {mem : Memory} {addr src n : ℕ} (hle : block ≤ addr)
    (hlt : addr + n ≤ block + 64) : Frame block mem (memcpy mem addr src n) :=
  Frame.write mem hle (by rw [Memory.length_read]; exact hlt)

theorem read_memcpy (mem : Memory) (addr src n : ℕ) :
    (memcpy mem addr src n).read addr n = mem.read src n := by
  have h := mem.read_write addr (mem.read src n)
  rw [Memory.length_read] at h
  exact h

theorem read_memcpy_append (mem : Memory) (addr k src n : ℕ) :
    (memcpy mem (addr + k) src n).read addr (k + n) = mem.read addr k ++ mem.read src n := by
  have h := mem.read_write_append addr k (mem.read src n)
  rw [Memory.length_read] at h
  exact h

variable {sha1 : Sha1Hash} {m : List UInt8} {buffer n : ℕ}

theorem collect_of_lt (hh : sha1.h = foldBlocks compress 64 initial m)
    (hc : sha1.mem.read block (m.length % 64) = rest 64 m) (hlt : m.length % 64 + n < 64) :
    (collect o block sha1 (m.length % 64) n buffer).h =
        foldBlocks compress 64 initial (m ++ sha1.mem.read buffer n) ∧
      (collect o block sha1 (m.length % 64) n buffer).datalen = sha1.datalen ∧
      (collect o block sha1 (m.length % 64) n buffer).mem.read block ((m.length + n) % 64) =
        rest 64 (m ++ sha1.mem.read buffer n) := by
  have hlen : (rest 64 m ++ sha1.mem.read buffer n).length < 64 := by
    rw [List.length_append, length_rest, Memory.length_read]
    exact hlt
  obtain ⟨hfold, hrest⟩ := foldBlocks_append (f := compress) (show 0 < 64 by decide) initial m
    (sha1.mem.read buffer n)
  rw [collect, if_pos hlt, hfold, hrest, foldBlocks_of_lt hlen, rest_of_lt hlen]
  refine ⟨hh, rfl, ?_⟩
  rw [show (m.length + n) % 64 = m.length % 64 + n by omega, read_memcpy_append, hc]

theorem first_spec (hh : sha1.h = foldBlocks compress 64 initial m)
    (hc : sha1.mem.read block (m.length % 64) = rest 64 m) (hle : 64 ≤ m.length % 64 + n)
    {s : Sha1Hash × ℕ × ℕ}
    (hs : first o block sha1 (m.length % 64) (m.length % 64 + n) buffer = s) :
    ∃ k, k ≤ n ∧ (m.length + k) % 64 = 0 ∧
      s.1.h = foldBlocks compress 64 initial (m ++ sha1.mem.read buffer k) ∧
      s.1.datalen = sha1.datalen ∧ Frame block sha1.mem s.1.mem ∧ s.2 = (buffer + k, n - k) := by
  by_cases hzero : m.length % 64 = 0
  · rw [first, if_neg (not_not_intro hzero), hzero, Nat.zero_add] at hs
    subst hs
    refine ⟨0, Nat.zero_le n, hzero, ?_, rfl, Frame.refl block _, rfl⟩
    rw [hh]
    exact congrArg _ (List.append_nil m).symm
  · rw [first, if_pos hzero] at hs
    subst hs
    generalize hk : 64 - m.length % 64 = k
    have hsum : m.length % 64 + k = 64 := by omega
    obtain ⟨hh', hlen', hframe'⟩ := update_sha1hash_spec o
      { sha1 with mem := memcpy sha1.mem (block + m.length % 64) buffer k } (Or.inl (Eq.refl block))
    have hread := read_memcpy_append sha1.mem block (m.length % 64) buffer k
    rw [hsum, hc] at hread
    refine ⟨k, by omega, by omega, ?_, hlen',
      (memcpy_frame (Nat.le_add_right block _) (by omega)).trans hframe', ?_⟩
    · have hlen64 : (rest 64 m ++ sha1.mem.read buffer k).length = 64 := by
        rw [List.length_append, length_rest, Memory.length_read, hsum]
      rw [hh', hread, hh, (foldBlocks_append (by decide) initial m _).1,
        foldBlocks_single (by decide) hlen64]
    · exact Prod.ext rfl (by change m.length % 64 + n - 64 = n - k; omega)

theorem collect_of_le (hh : sha1.h = foldBlocks compress 64 initial m)
    (hc : sha1.mem.read block (m.length % 64) = rest 64 m) (hle : 64 ≤ m.length % 64 + n)
    (hd : buffer + n ≤ block ∨ block + 64 ≤ buffer) :
    (collect o block sha1 (m.length % 64) n buffer).h =
        foldBlocks compress 64 initial (m ++ sha1.mem.read buffer n) ∧
      (collect o block sha1 (m.length % 64) n buffer).datalen = sha1.datalen ∧
      (collect o block sha1 (m.length % 64) n buffer).mem.read block ((m.length + n) % 64) =
        rest 64 (m ++ sha1.mem.read buffer n) := by
  rw [collect, if_neg (Nat.not_lt.mpr hle)]
  dsimp only
  generalize hs : first o block sha1 (m.length % 64) (m.length % 64 + n) buffer = s
  obtain ⟨k, hkn, hmod, hfirst, hlen, hframe, hplace⟩ := first_spec hh hc hle hs
  obtain ⟨j, rfl⟩ := Nat.exists_eq_add_of_le hkn
  rw [hplace]
  dsimp only
  rw [Nat.add_sub_cancel_left]
  obtain ⟨hblocks, hlen', hframe', hplace'⟩ := blocks_spec o s.1
    (show buffer + k + j ≤ block ∨ block + 64 ≤ buffer + k by omega)
  generalize blocks o block s.1 (buffer + k) j = s' at *
  rw [hplace']
  dsimp only
  have hread : s.1.mem.read (buffer + k) j = sha1.mem.read (buffer + k) j := hframe.read (by omega)
  have hnil : rest 64 (m ++ sha1.mem.read buffer k) = [] := by
    refine List.eq_nil_of_length_eq_zero ?_
    rw [length_rest, List.length_append, Memory.length_read, hmod]
  obtain ⟨hfold, hrest⟩ := foldBlocks_append (f := compress) (show 0 < 64 by decide) initial
    (m ++ sha1.mem.read buffer k) (sha1.mem.read (buffer + k) j)
  rw [hnil, List.nil_append, List.append_assoc, ← Memory.read_add] at hfold hrest
  have hhash : s'.1.h = foldBlocks compress 64 initial (m ++ sha1.mem.read buffer (k + j)) := by
    rw [hblocks, hfirst, hread, hfold]
  have hlast : sha1.mem.read (buffer + k + j / 64 * 64) (j % 64) =
      rest 64 (m ++ sha1.mem.read buffer (k + j)) := by
    rw [hrest, rest, Memory.length_read, Memory.drop_read]
    congr 1
    omega
  have hmod' : (m.length + (k + j)) % 64 = j % 64 := by omega
  rw [hmod']
  split_ifs with hne
  · refine ⟨hhash, hlen'.trans hlen, ?_⟩
    change (memcpy _ _ _ _).read block (j % 64) = _
    rw [read_memcpy, ← hlast, hframe'.read (by omega), hframe.read (by omega)]
  · refine ⟨hhash, hlen'.trans hlen, ?_⟩
    rw [not_not.mp hne] at hlast ⊢
    exact hlast

theorem collect_spec (o : ByteOrder) (sha1 : Sha1Hash)
    (hh : sha1.h = foldBlocks compress 64 initial m)
    (hc : sha1.mem.read block (m.length % 64) = rest 64 m)
    (hd : buffer + n ≤ block ∨ block + 64 ≤ buffer) :
    (collect o block sha1 (m.length % 64) n buffer).h =
        foldBlocks compress 64 initial (m ++ sha1.mem.read buffer n) ∧
      (collect o block sha1 (m.length % 64) n buffer).datalen = sha1.datalen ∧
      (collect o block sha1 (m.length % 64) n buffer).mem.read block ((m.length + n) % 64) =
        rest 64 (m ++ sha1.mem.read buffer n) :=
  (Nat.lt_or_ge (m.length % 64 + n) 64).elim (collect_of_lt hh hc)
    fun hle => collect_of_le hh hc hle hd

theorem calculate_of_lt (size : UInt64) (buffer : ℕ) (h : Absorbed block sha1 m)
    (hd : buffer + size.toNat ≤ block ∨ block + 64 ≤ buffer)
    (hlt : m.length + size.toNat < 2 ^ 61) :
    (calculate_sha1hash o block sha1 size buffer).2 = none ∧
      Absorbed block (calculate_sha1hash o block sha1 size buffer).1
        (m ++ sha1.mem.read buffer size.toNat) := by
  have hsum : (sha1.datalen + size).toNat = m.length + size.toNat := by
    rw [UInt64.toNat_add, h.datalen]
    exact Nat.mod_eq_of_lt (by omega)
  have hcheck : ¬ (size &&& ~~~((-1 : UInt64) >>> 1) ≠ 0 ∨
      (sha1.datalen + size) &&& 0xe000000000000000 ≠ 0) := by
    rw [not_or, not_not, not_not, topbit_eq_zero, topbits_eq_zero, hsum]
    exact ⟨by omega, hlt⟩
  obtain ⟨hh, hlen, hcollected⟩ := collect_spec o
    { sha1 with datalen := sha1.datalen + size } h.h h.collected hd
  rw [calculate_sha1hash, if_neg h.datalen_ne, if_neg hcheck, h.blocksize]
  have hlength : (m ++ sha1.mem.read buffer size.toNat).length = m.length + size.toNat := by
    rw [List.length_append, Memory.length_read]
  refine ⟨rfl, ?_, ?_, hh, ?_⟩
  · rw [hlen, hlength]
    exact hsum
  · rw [hlength]
    exact hlt
  · rw [hlength]
    exact hcollected

theorem calculate_of_le (size : UInt64) (buffer : ℕ) (h : Absorbed block sha1 m)
    (hle : 2 ^ 61 ≤ m.length + size.toNat) :
    calculate_sha1hash o block sha1 size buffer =
      ({ sha1 with datalen := sha1.datalen + size }, some .EOVERFLOW) := by
  have hcheck : size &&& ~~~((-1 : UInt64) >>> 1) ≠ 0 ∨
      (sha1.datalen + size) &&& 0xe000000000000000 ≠ 0 := by
    rw [ne_eq, ne_eq, topbit_eq_zero, topbits_eq_zero, UInt64.toNat_add, h.datalen]
    have hm := h.lt
    omega
  rw [calculate_sha1hash, if_neg h.datalen_ne, if_pos hcheck]

theorem calculate_of_value (h : sha1.datalen = -1) (size : UInt64) (buffer : ℕ) :
    calculate_sha1hash o block sha1 size buffer =
      calculate_sha1hash o block (init_sha1hash sha1) size buffer := by
  rw [calculate_sha1hash, calculate_sha1hash, if_pos h, if_neg (@init_absorbed 0 sha1).datalen_ne]

/-! ## The value -/

theorem bitlen_eq (x : UInt64) : bytes (x >>> 29).toUInt32 ++ bytes (x <<< 3).toUInt32 =
    lengthBytes x.toNat := by
  have hhigh : (x >>> 29).toUInt32 = UInt32.ofNat (x.toNat / 2 ^ 29) := by
    refine UInt32.toNat_inj.mp ?_
    rw [UInt64.toNat_toUInt32, UInt64.toNat_shiftRight, UInt32.toNat_ofNat',
      ← Nat.shiftRight_eq_div_pow]
    rfl
  have hlow : (x <<< 3).toUInt32 = UInt32.ofNat (8 * x.toNat) := by
    refine UInt32.toNat_inj.mp ?_
    rw [UInt64.toNat_toUInt32, UInt64.toNat_shiftLeft, UInt32.toNat_ofNat', Nat.shiftLeft_eq]
    change x.toNat * 8 % 2 ^ 64 % 2 ^ 32 = 8 * x.toNat % 2 ^ 32
    omega
  rw [hhigh, hlow, lengthBytes_eq]

theorem read_bitlen (o : ByteOrder) (mem : Memory) (x : UInt64) :
    (setw o (block + 56) (setw o (block + 56) mem 0 (htonl o (x >>> 29).toUInt32)) 1
      (htonl o (x <<< 3).toUInt32)).read block 64 = mem.read block 56 ++ lengthBytes x.toNat := by
  have h60 := (setw o (block + 56) mem 0 (htonl o (x >>> 29).toUInt32)).read_write_append block 60
    (bytes (x <<< 3).toUInt32)
  have h56 := mem.read_write_append block 56 (bytes (x >>> 29).toUInt32)
  rw [length_bytes] at h56 h60
  rw [setw, toMemory_htonl, h60, setw, toMemory_htonl, h56, List.append_assoc, bitlen_eq]

theorem read_padding (block : ℕ) (mem : Memory) (k n : ℕ) :
    ((mem.write (block + k) [0x80]).write (block + (k + 1)) (List.replicate n 0)).read block
      (k + 1 + n) = mem.read block k ++ [0x80] ++ List.replicate n 0 := by
  have h := (mem.write (block + k) [0x80]).read_write_append block (k + 1) (List.replicate n 0)
  rw [List.length_replicate] at h
  rw [h]
  exact congrArg (· ++ _) (mem.read_write_append block k [0x80])

theorem hashvalue_last (o : ByteOrder) (sha1 : Sha1Hash) (mem : Memory) {s : Sha1Hash}
    (hs : s = update_sha1hash o block ⟨sha1.datalen, sha1.h, setw o (block + 56)
      (setw o (block + 56) mem 0 (htonl o (sha1.datalen >>> 29).toUInt32)) 1
        (htonl o (sha1.datalen <<< 3).toUInt32)⟩ block) :
    hashvalue o ⟨-1, s.h.map (htonl o), s.mem⟩ =
      digest (compress sha1.h (mem.read block 56 ++ lengthBytes sha1.datalen.toNat)) := by
  have hmap : (fun w => toMemory o (htonl o w)) = bytes := funext (toMemory_htonl o)
  subst hs
  rw [hashvalue, Vector.toList_map, List.flatMap_map, hmap,
    (update_sha1hash_spec o _ (Or.inl (Eq.refl block))).1, read_bitlen]
  rfl

/-- **The value**: the hash value of the bytes taken in. -/
theorem value_spec (h : Absorbed block sha1 m) :
    (value_sha1hash o block sha1).2 = SecureHash.sha1 m ∧
      (value_sha1hash o block sha1).1.datalen = -1 := by
  rw [value_sha1hash, if_pos h.datalen_ne]
  dsimp only
  rw [h.blocksize, SecureHash.sha1]
  split_ifs with hlt
  · dsimp only
    -- the padding needs a block of its own
    rw [show 64 - (m.length % 64 + 1) = 63 - m.length % 64 by omega,
      foldBlocks_pad_of_lt _ _ _ (show 55 < m.length % 64 by omega)]
    have hread := read_padding block sha1.mem (m.length % 64) (63 - m.length % 64)
    rw [show m.length % 64 + 1 + (63 - m.length % 64) = 64 by omega, h.collected] at hread
    generalize (sha1.mem.write (block + m.length % 64) [0x80]).write (block + (m.length % 64 + 1))
      (List.replicate (63 - m.length % 64) 0) = mem1 at *
    obtain ⟨hh, hlen, -⟩ := update_sha1hash_spec o ⟨sha1.datalen, sha1.h, mem1⟩
      (Or.inl (Eq.refl block))
    generalize update_sha1hash o block ⟨sha1.datalen, sha1.h, mem1⟩ block = sha2 at *
    have hzero := sha2.mem.read_write block (List.replicate 56 0)
    rw [List.length_replicate] at hzero
    refine ⟨?_, rfl⟩
    rw [hashvalue_last o sha2 _ rfl, hh, hlen, Nat.add_zero, hzero, hread, h.h, h.datalen]
  · dsimp only
    rw [show 56 - (m.length % 64 + 1) = 55 - m.length % 64 by omega,
      foldBlocks_pad_of_le _ _ _ (show m.length % 64 ≤ 55 by omega)]
    have hread := read_padding block sha1.mem (m.length % 64) (55 - m.length % 64)
    rw [show m.length % 64 + 1 + (55 - m.length % 64) = 56 by omega, h.collected] at hread
    refine ⟨?_, rfl⟩
    rw [hashvalue_last o sha1 _ rfl, hread, h.h, h.datalen]

theorem value_of_value (block : ℕ) (h : sha1.datalen = -1) :
    value_sha1hash o block sha1 = (sha1, hashvalue o sha1) := by
  rw [value_sha1hash, if_neg (not_not_intro h)]

end

/-! ## Data in pieces -/

/-- A buffer of the caller, at any address. -/
structure Buffer where
  addr : ℕ
  bytes : List UInt8

/-- A buffer lies outside of the member `block`, and its size is a `size_t`. -/
def Buffer.Valid (block : ℕ) (b : Buffer) : Prop :=
  (b.addr + b.bytes.length ≤ block ∨ block + 64 ≤ b.addr) ∧ b.bytes.length < 2 ^ 64

/-- The caller fills the buffer. -/
def fill (sha1 : Sha1Hash) (b : Buffer) : Sha1Hash :=
  { sha1 with mem := sha1.mem.write b.addr b.bytes }

section

variable (o : ByteOrder) (block : ℕ)

/-- A call of `calculate_sha1hash` with a filled buffer. -/
def call (sha1 : Sha1Hash) (b : Buffer) : Sha1Hash × Option Errno :=
  calculate_sha1hash o block (fill sha1 b) (UInt64.ofNat b.bytes.length) b.addr

/-- The object behind a call for each buffer. -/
def feed : Sha1Hash → List Buffer → Sha1Hash
  | sha1, [] => sha1
  | sha1, b :: bs => feed (call o block sha1 b).1 bs

/-- The bytes of the buffers for which the call returns 0. -/
def accepted : Sha1Hash → List Buffer → List UInt8
  | _, [] => []
  | sha1, b :: bs => (if (call o block sha1 b).2 = none then b.bytes else []) ++
      accepted (call o block sha1 b).1 bs

/-- The object in which a call starts. -/
def begun (sha1 : Sha1Hash) : Sha1Hash := if sha1.datalen = -1 then init_sha1hash sha1 else sha1

/-- Every call that fails leaves the calculation as it is. -/
def Unaffected : Sha1Hash → List Buffer → Prop
  | _, [] => True
  | sha1, b :: bs => ((call o block sha1 b).2 ≠ none →
      (call o block sha1 b).1 = begun (fill sha1 b)) ∧ Unaffected (call o block sha1 b).1 bs

/-- An object behind `init_sha1hash` or behind `value_sha1hash`. -/
def Started (sha1 : Sha1Hash) : Prop :=
  (∃ s, sha1 = init_sha1hash s) ∨ ∃ s, sha1 = (value_sha1hash o block s).1

/-- The calls for the buffers, and then for the value, calculate the hash value of the accepted
data; without any buffer the call behind a call of `value_sha1hash` is its second one. -/
structure Hashes (sha1 : Sha1Hash) (bs : List Buffer) : Prop where
  value : (value_sha1hash o block (feed o block sha1 bs)).2 =
    if sha1.datalen = -1 ∧ bs = [] then hashvalue o sha1
    else SecureHash.sha1 (accepted o block sha1 bs)
  again : (value_sha1hash o block (value_sha1hash o block (feed o block sha1 bs)).1).2 =
    (value_sha1hash o block (feed o block sha1 bs)).2
  unaffected : Unaffected o block sha1 bs

end

section

variable {o : ByteOrder} {block : ℕ} {sha1 : Sha1Hash} {m : List UInt8} {b : Buffer}
  {bs : List Buffer}

theorem Buffer.Valid.toNat_size (h : b.Valid block) :
    (UInt64.ofNat b.bytes.length).toNat = b.bytes.length :=
  UInt64.toNat_ofNat_of_lt h.2

theorem Absorbed.fill (h : Absorbed block sha1 m) (hv : b.Valid block) :
    Absorbed block (fill sha1 b) m where
  datalen := h.datalen
  lt := h.lt
  h := h.h
  collected := by
    have hmod : m.length % 64 < 64 := Nat.mod_lt _ (by decide)
    have hd := hv.1
    rw [← h.collected]
    exact sha1.mem.read_write_of_disjoint (by omega)

theorem call_of_lt (h : Absorbed block sha1 m) (hv : b.Valid block)
    (hlt : m.length + b.bytes.length < 2 ^ 61) : (call o block sha1 b).2 = none ∧
      Absorbed block (call o block sha1 b).1 (m ++ b.bytes) := by
  have hsize := hv.toNat_size
  have hcall := calculate_of_lt (o := o) (UInt64.ofNat b.bytes.length) b.addr (h.fill hv)
    (by rw [hsize]; exact hv.1) (by rw [hsize]; exact hlt)
  have hread : (fill sha1 b).mem.read b.addr b.bytes.length = b.bytes := sha1.mem.read_write _ _
  rw [hsize, hread] at hcall
  exact hcall

/-- **Within the bound** every call takes its bytes in. -/
theorem feed_absorbed (h : Absorbed block sha1 m) (hv : ∀ b ∈ bs, b.Valid block)
    (hlt : m.length + (bs.map fun b => b.bytes.length).sum < 2 ^ 61) :
    Absorbed block (feed o block sha1 bs) (m ++ bs.flatMap Buffer.bytes) ∧
      accepted o block sha1 bs = bs.flatMap Buffer.bytes ∧ Unaffected o block sha1 bs := by
  induction bs generalizing sha1 m with
  | nil => exact ⟨by rw [List.flatMap_nil, List.append_nil]; exact h, rfl, trivial⟩
  | cons b bs ih =>
    rw [List.map_cons, List.sum_cons, ← Nat.add_assoc] at hlt
    obtain ⟨hok, habs⟩ := call_of_lt (o := o) h (hv b List.mem_cons_self) (by omega)
    obtain ⟨habs', hacc, hun⟩ := ih habs (fun b hb => hv b (List.mem_cons_of_mem _ hb))
      (by rw [List.length_append]; exact hlt)
    rw [List.append_assoc] at habs'
    refine ⟨habs', ?_, fun hne => absurd hok hne, hun⟩
    rw [accepted, if_pos hok, hacc]
    rfl

theorem sum_lt_of_unaffected (h : Absorbed block sha1 m) (hv : ∀ b ∈ bs, b.Valid block)
    (hun : Unaffected o block sha1 bs) :
    m.length + (bs.map fun b => b.bytes.length).sum < 2 ^ 61 := by
  induction bs generalizing sha1 m with
  | nil => exact h.lt
  | cons b bs ih =>
    have hb := hv b List.mem_cons_self
    rw [List.map_cons, List.sum_cons, ← Nat.add_assoc]
    rcases Nat.lt_or_ge (m.length + b.bytes.length) (2 ^ 61) with hlt | hle
    · have hsum := ih (call_of_lt (o := o) h hb hlt).2
        (fun b hb => hv b (List.mem_cons_of_mem _ hb)) hun.2
      rw [List.length_append] at hsum
      exact hsum
    · have hcall : call o block sha1 b = _ := calculate_of_le (o := o)
        (UInt64.ofNat b.bytes.length) b.addr (h.fill hb) (by rw [hb.toNat_size]; exact hle)
      have hsame := hun.1 (by rw [hcall]; exact Option.some_ne_none _)
      rw [hcall, begun, if_neg (h.fill hb).datalen_ne] at hsame
      have hlen : (fill sha1 b).datalen + UInt64.ofNat b.bytes.length = (fill sha1 b).datalen :=
        congrArg Sha1Hash.datalen hsame
      have hnat := congrArg UInt64.toNat hlen
      rw [UInt64.toNat_add, hb.toNat_size, (h.fill hb).datalen] at hnat
      have hsize := hb.2
      have hm := h.lt
      omega

theorem hashes_of_absorbed (h : Absorbed block sha1 []) (hv : ∀ b ∈ bs, b.Valid block) :
    Hashes o block sha1 bs ↔ (bs.map fun b => b.bytes.length).sum < 2 ^ 61 := by
  have hne : ¬(sha1.datalen = -1 ∧ bs = []) := fun hand => h.datalen_ne hand.1
  refine ⟨fun hh => ?_, fun hlt => ?_⟩
  · have hsum := sum_lt_of_unaffected h hv hh.unaffected
    rw [List.length_nil, Nat.zero_add] at hsum
    exact hsum
  · obtain ⟨habs, hacc, hun⟩ := feed_absorbed (o := o) h hv
      (by rw [List.length_nil, Nat.zero_add]; exact hlt)
    obtain ⟨hvalue, hlen⟩ := value_spec (o := o) habs
    refine ⟨?_, ?_, hun⟩
    · rw [hvalue, if_neg hne, hacc]
      rfl
    · rw [value_of_value block hlen]
      rfl

theorem call_of_value (block : ℕ) (h : sha1.datalen = -1) (b : Buffer) :
    call o block sha1 b = call o block (init_sha1hash sha1) b := by
  have hfill : fill (init_sha1hash sha1) b = init_sha1hash (fill sha1 b) := rfl
  have hlen : (fill sha1 b).datalen = -1 := h
  rw [call, call, hfill, ← calculate_of_value hlen]

theorem hashes_cons_of_value (h : sha1.datalen = -1) :
    Hashes o block sha1 (b :: bs) ↔ Hashes o block (init_sha1hash sha1) (b :: bs) := by
  have hcall := call_of_value (o := o) block h b
  have hfeed : feed o block sha1 (b :: bs) = feed o block (init_sha1hash sha1) (b :: bs) := by
    rw [feed, feed, hcall]
  have hacc : accepted o block sha1 (b :: bs) =
      accepted o block (init_sha1hash sha1) (b :: bs) := by
    rw [accepted, accepted, hcall]
  have hbegun : begun (fill sha1 b) = begun (fill (init_sha1hash sha1) b) := by
    rw [begun, if_pos (show (fill sha1 b).datalen = -1 from h), begun, if_neg]
    · rfl
    · exact (@init_absorbed 0 sha1).datalen_ne
  have hun : Unaffected o block sha1 (b :: bs) ↔
      Unaffected o block (init_sha1hash sha1) (b :: bs) := by
    rw [Unaffected, Unaffected, hcall, hbegun]
  have hnil : ∀ s : Sha1Hash, ¬(s.datalen = -1 ∧ b :: bs = []) :=
    fun s hand => List.cons_ne_nil _ _ hand.2
  refine ⟨fun hh => ⟨?_, ?_, hun.mp hh.unaffected⟩, fun hh => ⟨?_, ?_, hun.mpr hh.unaffected⟩⟩
  · have hvalue := hh.value
    rw [if_neg (hnil _), hfeed, hacc] at hvalue
    rw [if_neg (hnil _), hvalue]
  · rw [← hfeed]
    exact hh.again
  · have hvalue := hh.value
    rw [if_neg (hnil _)] at hvalue
    rw [if_neg (hnil _), hfeed, hacc, hvalue]
  · rw [hfeed]
    exact hh.again

theorem value_datalen (o : ByteOrder) (block : ℕ) (sha1 : Sha1Hash) :
    (value_sha1hash o block sha1).1.datalen = -1 := by
  rw [value_sha1hash]
  dsimp only
  by_cases h : sha1.datalen ≠ -1
  · rw [if_pos h]
  · rw [if_neg h]
    exact not_not.mp h

/-- **SHA-1 does not depend on how the data is cut** as long as there are less than `2 ^ 61` bytes.
With more of them a call fails, but its bytes stay counted in `datalen`. -/
theorem hashes_iff (hs : Started o block sha1) (hv : ∀ b ∈ bs, b.Valid block) :
    Hashes o block sha1 bs ↔ (bs.map fun b => b.bytes.length).sum < 2 ^ 61 := by
  rcases hs with ⟨s, rfl⟩ | ⟨s, rfl⟩
  · exact hashes_of_absorbed (init_absorbed s) hv
  · have hlen := value_datalen o block s
    generalize (value_sha1hash o block s).1 = s' at *
    rcases bs with _ | ⟨b, bs⟩
    · have hsecond := value_of_value (o := o) block hlen
      refine ⟨fun _ => by decide, fun _ => ⟨?_, ?_, trivial⟩⟩
      · rw [if_pos ⟨hlen, rfl⟩, feed, hsecond]
      · rw [feed, hsecond]
        exact congrArg Prod.snd hsecond
    · rw [hashes_cons_of_value hlen]
      exact hashes_of_absorbed (init_absorbed s') hv

/-- Two pieces of "abc". -/
theorem hashes_iff_abc : Hashes .little 0
    (init_sha1hash ⟨0, #v[0, 0, 0, 0, 0], fun _ => 0⟩) [⟨65, [97]⟩, ⟨100, [98, 99]⟩] ↔
      ([⟨65, [97]⟩, ⟨100, [98, 99]⟩].map fun b : Buffer => b.bytes.length).sum < 2 ^ 61 :=
  hashes_iff (Or.inl ⟨_, rfl⟩) (by
    intro b hb
    rcases List.mem_cons.mp hb with rfl | hb
    · exact ⟨by decide, by decide⟩
    · rw [List.mem_singleton.mp hb]
      exact ⟨by decide, by decide⟩)

/-- The call with `2 ^ 63` bytes behind `init_sha1hash` fails and is counted. -/
theorem not_hashes_huge : ¬ Hashes .little 0 (init_sha1hash ⟨0, #v[0, 0, 0, 0, 0], fun _ => 0⟩)
    [⟨64, List.replicate (2 ^ 63) 0⟩] := by
  rw [hashes_of_absorbed (init_absorbed _)]
  · rw [List.map_singleton, List.sum_singleton, List.length_replicate]
    exact Nat.not_lt.mpr (Nat.pow_le_pow_right (by decide) (by decide))
  · intro b hb
    rw [List.mem_singleton.mp hb]
    refine ⟨Or.inr le_rfl, ?_⟩
    rw [List.length_replicate]
    exact Nat.pow_lt_pow_right (by decide) (by decide)

end

end Sha1
end CKern
