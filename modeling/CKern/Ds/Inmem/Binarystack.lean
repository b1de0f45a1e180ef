import CKern.Library.Refinement
import Mathlib.Data.List.Nodup
import Mathlib.Data.List.Range

/-!
# `ds/inmem/binarystack.c`: a stack of bytes in blocks

* `Blockheader`, `Binarystack`: the blocks, the last one first, and the fields of the stack.
* `initBinarystack`, `pushBinarystack`, `popBinarystack`, `sizeBinarystack`, `topBinarystack`,
  `isemptyBinarystack`: the calls. The used size of a block is written to its header only when
  another block is allocated, or in `pop2Binarystack`.
* `Rep`: the addresses of the bytes on the stack, from the top on.  Only the last block of the list
  may be empty.
* `binarystack_exact`: a push puts a row of addresses on top, and a pop takes addresses off.
-/

namespace CKern

open Refinement

/-- `blockheader_t`, with its address. The field `next` is the place of the block in the list. -/
structure Blockheader where
  addr : ℕ
  size : ℕ
  usedsize : ℕ
  deriving DecidableEq, Repr

/-- `binarystack_t`, with the headers of its blocks. The first one is that of `blockstart`. -/
structure Binarystack where
  freeblocksize : ℕ
  blocksize : ℕ
  blockstart : ℕ
  headers : List Blockheader
  deriving DecidableEq, Repr

namespace Binarystack

/-- The error codes of the module; `release` is an error of the page cache when a block is freed. -/
inductive Errno
  | EINVAL
  | ENOMEM
  | E2BIG
  | release
  deriving DecidableEq, Repr

/-- What a call returns: success, with the address of the new object if there is one, or an
error. -/
inductive Result
  | done
  | pushed (lastpushed : ℕ)
  | error (e : Errno)
  deriving DecidableEq, Repr

/-- `sizeof(blockheader_t)`. -/
def headersize : ℕ := 24

/-! ## Blocks -/

/-- `blocksize_blockheader`. -/
def blocksizeBlockheader (header : Blockheader) : ℕ := header.size - headersize

/-- `freesize_blockheader`. -/
def freesizeBlockheader (header : Blockheader) : ℕ := header.size - headersize - header.usedsize

/-- `blockstart_blockheader`. -/
def blockstartBlockheader (header : Blockheader) : ℕ := header.addr + headersize

/-- The headers after the used size of the first block has been written. -/
def storeUsedsize (stack : Binarystack) : List Blockheader :=
  match stack.headers with
  | [] => []
  | header :: rest =>
    { header with usedsize := stack.blocksize - stack.freeblocksize } :: rest

/-- The size of the page for a block of `size` bytes, if there is one. -/
def allocsize (size : ℕ) : Option ℕ :=
  if size ≤ 65536 - headersize then some 65536
  else if size ≤ 1024 * 1024 - headersize then some (1024 * 1024)
  else none

/-- `allocateblock_binarystack`: the stack, or an error. The page is at `page`, unless it is not
allocated. -/
def allocateblockBinarystack (stack : Binarystack) (size : ℕ) (page : Option ℕ) :
    Except Errno Binarystack :=
  match allocsize size with
  | none => .error .E2BIG
  | some memSize =>
    match page with
    | none => .error .ENOMEM
    | some addr =>
      let header : Blockheader := ⟨addr, memSize, 0⟩
      .ok
        { freeblocksize := blocksizeBlockheader header
          blocksize := blocksizeBlockheader header
          blockstart := blockstartBlockheader header
          headers := header :: storeUsedsize stack }

/-! ## The calls -/

/-- `init_binarystack`. -/
def initBinarystack (preallocateSize : ℕ) (page : Option ℕ) : Except Errno Binarystack :=
  allocateblockBinarystack ⟨0, 0, 0, []⟩ preallocateSize page

/-- `isempty_binarystack`. -/
def isemptyBinarystack (stack : Binarystack) : Prop := stack.freeblocksize = stack.blocksize

instance (stack : Binarystack) : Decidable (isemptyBinarystack stack) :=
  inferInstanceAs (Decidable (_ = _))

/-- `size_binarystack`. -/
def sizeBinarystack (stack : Binarystack) : ℕ :=
  stack.headers.tail.foldl (fun size header => size + header.usedsize)
    (stack.blocksize - stack.freeblocksize)

/-- `top_binarystack`. -/
def topBinarystack (stack : Binarystack) : ℕ := stack.blockstart + stack.freeblocksize

/-- `push2_binarystack`. -/
def push2Binarystack (stack : Binarystack) (size : ℕ) (page : Option ℕ) : Result × Binarystack :=
  let push (stack : Binarystack) : Result × Binarystack :=
    let freeblocksize := stack.freeblocksize - size
    (.pushed (stack.blockstart + freeblocksize), { stack with freeblocksize })
  if size > stack.freeblocksize then
    match allocateblockBinarystack stack size page with
    | .error e => (.error e, stack)
    | .ok stack => push stack
  else push stack

/-- `push_binarystack`. -/
def pushBinarystack (stack : Binarystack) (size : ℕ) (page : Option ℕ) : Result × Binarystack :=
  if stack.freeblocksize ≥ size then
    let freeblocksize := stack.freeblocksize - size
    (.pushed (stack.blockstart + freeblocksize), { stack with freeblocksize })
  else push2Binarystack stack size page

/-- The loop of `pop2_binarystack` that looks for `endheader`: the blocks from it on, and `offset`,
or nothing if the list ends before. -/
def findEndheader : List Blockheader → ℕ → Option (List Blockheader × ℕ)
  | [], _ => none
  | endheader :: next, offset =>
    if endheader.usedsize < offset then findEndheader next (offset - endheader.usedsize)
    else some (endheader :: next, offset)

/-- A block whose last byte is popped is passed, unless it is the only one. -/
def passEmpty : List Blockheader × ℕ → List Blockheader × ℕ
  | (endheader :: next, offset) =>
    if endheader.usedsize = offset ∧ next ≠ [] then (next, 0) else (endheader :: next, offset)
  | ([], offset) => ([], offset)

/-- `pop2_binarystack`. The predicate `release` tells whether a block is freed without error. -/
def pop2Binarystack (release : ℕ → Bool) (stack : Binarystack) (size : ℕ) : Result × Binarystack :=
  let headers := storeUsedsize stack
  match (findEndheader headers size).map passEmpty with
  | none | some ([], _) => (.error .EINVAL, { stack with headers })
  | some (header :: next, offset) =>
    let freed := headers.take (headers.length - (next.length + 1))
    let stack : Binarystack :=
      { freeblocksize := freesizeBlockheader header + offset
        blocksize := blocksizeBlockheader header
        blockstart := blockstartBlockheader header
        headers := header :: next }
    if freed.all fun block => release block.addr then (.done, stack) else (.error .release, stack)

/-- `pop_binarystack`. -/
def popBinarystack (release : ℕ → Bool) (stack : Binarystack) (size : ℕ) : Result × Binarystack :=
  if stack.blocksize - stack.freeblocksize > size then
    (.done, { stack with freeblocksize := stack.freeblocksize + size })
  else pop2Binarystack release stack size

/-! ## The bytes on the stack -/

/-- The addresses of the used bytes of a block, from the top on. -/
def bytesBlockheader (header : Blockheader) : List ℕ :=
  List.range' (blockstartBlockheader header + freesizeBlockheader header) header.usedsize

/-- The addresses of the bytes of some blocks. -/
def bytesBlocks (headers : List Blockheader) : List ℕ := headers.flatMap bytesBlockheader

/-- The addresses of the bytes on the stack, from the top on. -/
def bytes (stack : Binarystack) : List ℕ := bytesBlocks (storeUsedsize stack)

/-- The used bytes of a block lie behind the header and within the block. -/
def Sound (header : Blockheader) : Prop := header.usedsize + headersize ≤ header.size

/-- Two blocks do not overlap. -/
def Apart (x y : Blockheader) : Prop := x.addr + x.size ≤ y.addr ∨ y.addr + y.size ≤ x.addr

/-- The blocks of a stack: only the last one may be empty. -/
structure Blocks (headers : List Blockheader) : Prop where
  ne_nil : headers ≠ []
  sound : ∀ h ∈ headers, Sound h
  used : ∀ h ∈ headers.dropLast, 0 < h.usedsize
  apart : headers.Pairwise Apart

section Blocks

variable {header : Blockheader} {headers next : List Blockheader} {offset : ℕ}

theorem bytesBlocks_cons :
    bytesBlocks (header :: next) = bytesBlockheader header ++ bytesBlocks next := rfl

theorem length_bytesBlockheader : (bytesBlockheader header).length = header.usedsize :=
  List.length_range'

theorem drop_bytesBlockheader (h : Sound header) (hle : offset ≤ header.usedsize) :
    (bytesBlockheader header).drop offset =
      bytesBlockheader { header with usedsize := header.usedsize - offset } := by
  unfold Sound at h
  unfold bytesBlockheader freesizeBlockheader blockstartBlockheader
  rw [List.drop_range']
  dsimp only
  congr 1
  omega

theorem append_bytesBlockheader {size : ℕ}
    (h : header.usedsize + size + headersize ≤ header.size) :
    bytesBlockheader { header with usedsize := header.usedsize + size } =
      List.range' (blockstartBlockheader header + (freesizeBlockheader header - size)) size ++
        bytesBlockheader header := by
  unfold bytesBlockheader freesizeBlockheader blockstartBlockheader
  dsimp only
  rw [Nat.add_comm header.usedsize size, ← List.range'_append_1]
  congr 1
  · congr 1
    omega
  · congr 1
    omega

theorem mem_bytesBlockheader (h : Sound header) {a : ℕ} (ha : a ∈ bytesBlockheader header) :
    header.addr + headersize ≤ a ∧ a < header.addr + header.size := by
  unfold Sound at h
  unfold bytesBlockheader freesizeBlockheader blockstartBlockheader at ha
  rw [List.mem_range'_1] at ha
  omega

/-- **The bytes on the stack do not overlap.** -/
theorem Blocks.nodup (h : Blocks headers) : (bytesBlocks headers).Nodup := by
  refine List.nodup_flatMap.mpr ⟨fun _ _ => List.nodup_range', ?_⟩
  refine h.apart.imp_of_mem fun {x y} hx hy hapart => ?_
  intro a hax hay
  have hax' := mem_bytesBlockheader (h.sound x hx) hax
  have hay' := mem_bytesBlockheader (h.sound y hy) hay
  unfold Apart at hapart
  omega

/-- **The loop of `pop2_binarystack`** drops the bytes of the blocks that it passes. -/
theorem findEndheader_spec (hne : headers ≠ []) (offset : ℕ) :
    (findEndheader headers offset = none ∧ (bytesBlocks headers).length < offset) ∨
      ∃ passed endheader next rest, findEndheader headers offset = some (endheader :: next, rest) ∧
        headers = passed ++ endheader :: next ∧ rest ≤ endheader.usedsize ∧
        offset ≤ (bytesBlocks headers).length ∧
        (bytesBlocks headers).drop offset = (bytesBlocks (endheader :: next)).drop rest := by
  induction headers generalizing offset with
  | nil => exact absurd rfl hne
  | cons header headers ih =>
    have hlength : (bytesBlocks (header :: headers)).length =
        header.usedsize + (bytesBlocks headers).length := by
      rw [bytesBlocks_cons, List.length_append, length_bytesBlockheader]
    rw [findEndheader]
    by_cases hless : header.usedsize < offset
    · rw [if_pos hless]
      by_cases hnil : headers = []
      · subst hnil
        refine Or.inl ⟨rfl, ?_⟩
        rw [hlength]
        exact hless
      · rcases ih hnil (offset - header.usedsize) with
          ⟨hnone, hlt⟩ | ⟨passed, endheader, next, rest, hfind, hheaders, hle, hoffset, hdrop⟩
        · exact Or.inl ⟨hnone, by omega⟩
        · refine Or.inr ⟨header :: passed, endheader, next, rest, hfind, by rw [hheaders]; rfl, hle,
            by omega, ?_⟩
          rw [← hdrop, bytesBlocks_cons, List.drop_append, length_bytesBlockheader,
            List.drop_eq_nil_of_le (by rw [length_bytesBlockheader]; omega), List.nil_append]
    · rw [if_neg hless]
      exact Or.inr ⟨[], header, headers, offset, rfl, rfl, by omega, by omega, rfl⟩

theorem Blocks.suffix (h : Blocks headers) (hsuffix : next <:+ headers) (hne : next ≠ []) :
    Blocks next := by
  obtain ⟨passed, rfl⟩ := hsuffix
  refine ⟨hne, fun x hx => h.sound x (List.mem_append_right _ hx), fun x hx => h.used x ?_,
    (List.pairwise_append.mp h.apart).2.1⟩
  rw [List.dropLast_append_of_ne_nil hne]
  exact List.mem_append_right _ hx

theorem Blocks.replace (h : Blocks (header :: next)) {usedsize : ℕ}
    (hle : usedsize + headersize ≤ header.size) (hused : next ≠ [] → 0 < usedsize) :
    Blocks ({ header with usedsize } :: next) := by
  obtain ⟨-, hsound⟩ := List.forall_mem_cons.mp h.sound
  refine ⟨by simp, List.forall_mem_cons.mpr ⟨hle, hsound⟩, ?_, ?_⟩
  · cases next with
    | nil => simp
    | cons x next =>
      rw [List.dropLast_cons_of_ne_nil (by simp)]
      have hrest := h.used
      rw [List.dropLast_cons_of_ne_nil (by simp)] at hrest
      exact List.forall_mem_cons.mpr ⟨hused (by simp), fun y hy =>
        hrest y (List.mem_cons_of_mem _ hy)⟩
  · obtain ⟨hhead, htail⟩ := List.pairwise_cons.mp h.apart
    exact List.pairwise_cons.mpr ⟨fun x hx => hhead x hx, htail⟩

end Blocks

/-! ## The calls on the bytes -/

/-- The fields of the stack are those of its first block, whose used size is not stored yet. -/
structure Inv (stack : Binarystack) (header : Blockheader) (next : List Blockheader) : Prop where
  headers_eq : storeUsedsize stack = header :: next
  blocks : Blocks (header :: next)
  blocksize_eq : stack.blocksize = blocksizeBlockheader header
  free_eq : stack.freeblocksize = freesizeBlockheader header
  blockstart_eq : stack.blockstart = blockstartBlockheader header

section Calls

variable {stack : Binarystack} {header : Blockheader} {next : List Blockheader} {size : ℕ}
  {page : Option ℕ}

theorem Inv.bytes_eq (h : Inv stack header next) : bytes stack = bytesBlocks (header :: next) := by
  rw [bytes, h.headers_eq]

theorem Inv.sound (h : Inv stack header next) : Sound header :=
  h.blocks.sound header List.mem_cons_self

theorem Inv.usedsize_eq (h : Inv stack header next) :
    header.usedsize = stack.blocksize - stack.freeblocksize := by
  have hsound := h.sound
  rw [h.blocksize_eq, h.free_eq]
  unfold Sound at hsound
  unfold blocksizeBlockheader freesizeBlockheader
  omega

theorem inv_of_blocks (h : Blocks (header :: next)) {usedsize : ℕ} :
    Inv ⟨freesizeBlockheader header, blocksizeBlockheader header, blockstartBlockheader header,
      { header with usedsize } :: next⟩ header next := by
  have hsound := h.sound header List.mem_cons_self
  unfold Sound at hsound
  refine ⟨?_, h, rfl, rfl, rfl⟩
  unfold storeUsedsize blocksizeBlockheader freesizeBlockheader
  dsimp only
  congr 2
  omega

/-- **The size** is the number of the bytes. -/
theorem sizeBinarystack_eq (h : Inv stack header next) :
    sizeBinarystack stack = (bytes stack).length := by
  have hfold : ∀ (headers : List Blockheader) (size : ℕ),
      headers.foldl (fun size header => size + header.usedsize) size =
        size + (bytesBlocks headers).length := by
    intro headers
    induction headers with
    | nil => exact fun _ => rfl
    | cons header headers ih =>
      intro size
      rw [List.foldl_cons, ih, bytesBlocks_cons, List.length_append, length_bytesBlockheader,
        Nat.add_assoc]
  have htail : stack.headers.tail = next := by
    have heq := h.headers_eq
    unfold storeUsedsize at heq
    cases hheaders : stack.headers with
    | nil =>
      rw [hheaders] at heq
      cases heq
    | cons x rest =>
      rw [hheaders] at heq
      exact (List.cons_eq_cons.mp heq).2
  rw [h.bytes_eq, bytesBlocks_cons, List.length_append, length_bytesBlockheader, sizeBinarystack,
    hfold, htail, h.usedsize_eq]

/-- **The stack is empty** exactly if its first block is. -/
theorem isemptyBinarystack_iff (h : Inv stack header next) :
    isemptyBinarystack stack ↔ bytes stack = [] := by
  have hused := h.usedsize_eq
  have hsound := h.sound
  have hfree : stack.freeblocksize ≤ stack.blocksize := by
    rw [h.blocksize_eq, h.free_eq]
    exact Nat.sub_le _ _
  rw [h.bytes_eq, bytesBlocks_cons, List.append_eq_nil_iff, ← List.length_eq_zero_iff,
    length_bytesBlockheader]
  unfold isemptyBinarystack
  constructor
  · intro hempty
    refine ⟨by omega, ?_⟩
    cases next with
    | nil => rfl
    | cons x next =>
      have hpos := h.blocks.used header (by rw [List.dropLast_cons_of_ne_nil (by simp)]; simp)
      omega
  · rintro ⟨hzero, -⟩
    omega

/-- **The top** is the address of the first byte. -/
theorem topBinarystack_eq (h : Inv stack header next) (hne : bytes stack ≠ []) :
    (bytes stack).head? = some (topBinarystack stack) := by
  have hpos : header.usedsize ≠ 0 := by
    intro hzero
    refine hne ((isemptyBinarystack_iff h).mp ?_)
    have hused := h.usedsize_eq
    have hfree : stack.freeblocksize ≤ stack.blocksize := by
      rw [h.blocksize_eq, h.free_eq]
      exact Nat.sub_le _ _
    unfold isemptyBinarystack
    omega
  rw [h.bytes_eq, bytesBlocks_cons, topBinarystack, h.blockstart_eq, h.free_eq]
  obtain ⟨n, hn⟩ := Nat.exists_eq_succ_of_ne_zero hpos
  unfold bytesBlockheader
  rw [hn, List.range'_succ]
  rfl

theorem Inv.exists_headers (h : Inv stack header next) :
    ∃ usedsize, stack.headers = { header with usedsize } :: next := by
  have heq := h.headers_eq
  unfold storeUsedsize at heq
  cases hheaders : stack.headers with
  | nil =>
    rw [hheaders] at heq
    cases heq
  | cons x rest =>
    rw [hheaders] at heq
    obtain ⟨rfl, rfl⟩ := List.cons_eq_cons.mp heq
    exact ⟨x.usedsize, rfl⟩

theorem Inv.setFree (h : Inv stack header next) {usedsize : ℕ}
    (hle : usedsize + headersize ≤ header.size) (hused : next ≠ [] → 0 < usedsize) :
    Inv { stack with freeblocksize := header.size - headersize - usedsize }
      { header with usedsize } next := by
  obtain ⟨usedsize', hheaders⟩ := h.exists_headers
  refine ⟨?_, h.blocks.replace hle hused, h.blocksize_eq, rfl, h.blockstart_eq⟩
  unfold storeUsedsize
  dsimp only
  rw [hheaders, h.blocksize_eq]
  unfold blocksizeBlockheader
  dsimp only
  congr 2
  omega

/-- What a push does: it puts a row of addresses on top, or nothing changes. -/
def PushSpec (stack : Binarystack) (size : ℕ) (page : Option ℕ) (result : Result × Binarystack) :
    Prop :=
  (∃ e, result = (.error e, stack) ∧ (page = none ∨ size > 1024 * 1024 - headersize)) ∨
    ∃ lastpushed header next, result.1 = .pushed lastpushed ∧ Inv result.2 header next ∧
      bytes result.2 = List.range' lastpushed size ++ bytes stack

theorem Inv.push (h : Inv stack header next) (hsize : size ≤ stack.freeblocksize) :
    PushSpec stack size page (.pushed (stack.blockstart + (stack.freeblocksize - size)),
      { stack with freeblocksize := stack.freeblocksize - size }) := by
  have hsound := h.sound
  have hfree := h.free_eq
  unfold Sound at hsound
  unfold freesizeBlockheader at hfree
  have hle : header.usedsize + size + headersize ≤ header.size := by omega
  have hnew : header.size - headersize - (header.usedsize + size) = stack.freeblocksize - size := by
    omega
  have hpush := h.setFree hle fun hne => by
    have hpos := h.blocks.used header (by rw [List.dropLast_cons_of_ne_nil hne]; simp)
    omega
  rw [hnew] at hpush
  refine Or.inr ⟨_, _, _, rfl, hpush, ?_⟩
  rw [hpush.bytes_eq, h.bytes_eq, bytesBlocks_cons, bytesBlocks_cons, append_bytesBlockheader hle,
    List.append_assoc, h.blockstart_eq, h.free_eq]

/-- A page that is allocated does not overlap the blocks of the stack. -/
def Fresh (stack : Binarystack) (size addr : ℕ) : Prop :=
  ∀ memSize ∈ allocsize size, ∀ header ∈ stack.headers, Apart ⟨addr, memSize, 0⟩ header

theorem allocsize_le {memSize : ℕ} (h : allocsize size = some memSize) :
    size + headersize ≤ memSize := by
  unfold allocsize headersize at *
  split at h
  · obtain rfl := Option.some_inj.mp h
    omega
  · split at h
    · obtain rfl := Option.some_inj.mp h
      omega
    · cases h

theorem allocsize_eq_none (h : allocsize size = none) : size > 1024 * 1024 - headersize := by
  unfold allocsize headersize at *
  split at h
  · cases h
  · split at h
    · cases h
    · omega

/-- **A push.** -/
theorem pushBinarystack_spec (h : Inv stack header next)
    (hfresh : ∀ addr ∈ page, Fresh stack size addr) :
    PushSpec stack size page (pushBinarystack stack size page) := by
  unfold pushBinarystack
  by_cases hfree : stack.freeblocksize ≥ size
  · rw [if_pos hfree]
    exact h.push hfree
  rw [if_neg hfree]
  unfold push2Binarystack
  dsimp only
  rw [if_pos (Nat.lt_of_not_le hfree)]
  unfold allocateblockBinarystack
  cases halloc : allocsize size with
  | none => exact Or.inl ⟨_, rfl, Or.inr (allocsize_eq_none halloc)⟩
  | some memSize =>
    cases page with
    | none => exact Or.inl ⟨_, rfl, Or.inl rfl⟩
    | some addr =>
      obtain ⟨usedsize, hheaders⟩ := h.exists_headers
      have hle := allocsize_le halloc
      have happart := hfresh addr rfl memSize halloc
      rw [hheaders, List.forall_mem_cons] at happart
      have hblocks : Blocks (⟨addr, memSize, size⟩ :: header :: next) := by
        refine ⟨by simp, List.forall_mem_cons.mpr ⟨hle, h.blocks.sound⟩, ?_, ?_⟩
        · rw [List.dropLast_cons_of_ne_nil (by simp)]
          exact List.forall_mem_cons.mpr ⟨by dsimp only; omega, h.blocks.used⟩
        · exact List.pairwise_cons.mpr
            ⟨List.forall_mem_cons.mpr ⟨happart.1, happart.2⟩, h.blocks.apart⟩
      have hinv := @inv_of_blocks _ _ hblocks 0
      dsimp only
      rw [h.headers_eq]
      refine Or.inr ⟨_, _, _, rfl, hinv, ?_⟩
      rw [h.bytes_eq]
      exact hinv.bytes_eq

theorem passEmpty_spec {offset : ℕ} (h : Blocks (header :: next)) (hle : offset ≤ header.usedsize) :
    ∃ header' next' offset', passEmpty (header :: next, offset) = (header' :: next', offset') ∧
      header' :: next' <:+ header :: next ∧ offset' ≤ header'.usedsize ∧
      (next' ≠ [] → 0 < header'.usedsize - offset') ∧
      (bytesBlocks (header' :: next')).drop offset' =
        (bytesBlocks (header :: next)).drop offset := by
  unfold passEmpty
  dsimp only
  by_cases hpass : header.usedsize = offset ∧ next ≠ []
  · rw [if_pos hpass]
    obtain ⟨hused, hne⟩ := hpass
    obtain ⟨x, rest, rfl⟩ := List.exists_cons_of_ne_nil hne
    refine ⟨x, rest, 0, rfl, List.suffix_cons _ _, Nat.zero_le _, fun hrest => ?_, ?_⟩
    · refine h.used x ?_
      rw [List.dropLast_cons_of_ne_nil (by simp), List.dropLast_cons_of_ne_nil hrest]
      simp
    · rw [List.drop_zero, bytesBlocks_cons, bytesBlocks_cons, List.drop_append,
        length_bytesBlockheader, hused, Nat.sub_self, List.drop_zero,
        List.drop_eq_nil_of_le (by rw [length_bytesBlockheader]; omega), List.nil_append,
        bytesBlocks_cons]
  · rw [if_neg hpass]
    refine ⟨header, next, offset, rfl, List.suffix_refl _, hle, fun hne => ?_, rfl⟩
    have hused : header.usedsize ≠ offset := fun heq => hpass ⟨heq, hne⟩
    omega

/-- What a pop does: it takes addresses off, also if a block is not freed, or nothing changes but
the header of the first block. -/
def PopSpec (release : ℕ → Bool) (stack : Binarystack) (size : ℕ) (result : Result × Binarystack) :
    Prop :=
  if size ≤ (bytes stack).length then
    (∃ header next, Inv result.2 header next) ∧ bytes result.2 = (bytes stack).drop size ∧
      (result.1 = .done ∨
        result.1 = .error .release ∧ ∃ header ∈ stack.headers, release header.addr = false)
  else result = (.error .EINVAL, { stack with headers := storeUsedsize stack })

/-- **A pop.** -/
theorem popBinarystack_spec (size : ℕ) (release : ℕ → Bool) (h : Inv stack header next) :
    PopSpec release stack size (popBinarystack release stack size) := by
  have hsound := h.sound
  have hfree := h.free_eq
  have hblock := h.blocksize_eq
  have hused := h.usedsize_eq
  unfold Sound at hsound
  unfold freesizeBlockheader at hfree
  unfold blocksizeBlockheader at hblock
  have hlength : (bytes stack).length = header.usedsize + (bytesBlocks next).length := by
    rw [h.bytes_eq, bytesBlocks_cons, List.length_append, length_bytesBlockheader]
  unfold PopSpec popBinarystack
  by_cases hfast : stack.blocksize - stack.freeblocksize > size
  · rw [if_pos hfast, if_pos (by omega)]
    have hnew := @Inv.setFree stack header next h (header.usedsize - size) (by omega)
      fun _ => by omega
    have hsize : header.size - headersize - (header.usedsize - size) =
        stack.freeblocksize + size := by omega
    rw [hsize] at hnew
    refine ⟨⟨_, _, hnew⟩, ?_, Or.inl rfl⟩
    rw [hnew.bytes_eq, h.bytes_eq, bytesBlocks_cons, bytesBlocks_cons,
      List.drop_append_of_le_length (by rw [length_bytesBlockheader]; omega),
      drop_bytesBlockheader hsound (by omega)]
  · rw [if_neg hfast]
    unfold pop2Binarystack
    dsimp only
    rw [h.headers_eq]
    rcases findEndheader_spec (List.cons_ne_nil header next) size with
      ⟨hnone, hlt⟩ | ⟨passed, e, nx, rest, hfind, hheaders, hle, hoffset, hdrop⟩
    · rw [← h.bytes_eq] at hlt
      rw [hnone, if_neg (by omega)]
      rfl
    · rw [← h.bytes_eq] at hoffset
      have hblocks := h.blocks.suffix ⟨passed, hheaders.symm⟩ (List.cons_ne_nil e nx)
      obtain ⟨header', next', offset', hpass, hsuffix, hle', hpos, hdrop'⟩ :=
        passEmpty_spec hblocks hle
      have hblocks' := hblocks.suffix hsuffix (List.cons_ne_nil header' next')
      have hsound' := hblocks'.sound header' List.mem_cons_self
      rw [hfind, if_pos hoffset, Option.map_some, hpass]
      dsimp only
      have hreplaced :
          Blocks ({ header' with usedsize := header'.usedsize - offset' } :: next') := by
        refine hblocks'.replace ?_ hpos
        unfold Sound at hsound'
        omega
      have hnew := @inv_of_blocks _ _ hreplaced header'.usedsize
      have hfree' : freesizeBlockheader { header' with usedsize := header'.usedsize - offset' } =
          freesizeBlockheader header' + offset' := by
        unfold Sound at hsound'
        unfold freesizeBlockheader
        dsimp only
        omega
      rw [hfree'] at hnew
      have hbytes := hnew.bytes_eq
      rw [bytesBlocks_cons, ← drop_bytesBlockheader hsound' hle', ← List.drop_append_of_le_length
        (by rw [length_bytesBlockheader]; omega), ← bytesBlocks_cons, hdrop', ← hdrop,
        ← h.bytes_eq] at hbytes
      split
      next hall => exact ⟨⟨_, _, hnew⟩, hbytes, Or.inl rfl⟩
      next hall =>
        refine ⟨⟨_, _, hnew⟩, hbytes, Or.inr ⟨rfl, ?_⟩⟩
        rw [List.all_eq_true] at hall
        push Not at hall
        obtain ⟨block, hmem, hrelease⟩ := hall
        have hrelease := Bool.eq_false_iff.mpr hrelease
        obtain ⟨usedsize, hstored⟩ := h.exists_headers
        rw [hstored]
        rcases List.mem_cons.mp (List.mem_of_mem_take hmem) with rfl | hnext
        · exact ⟨_, List.mem_cons_self, hrelease⟩
        · exact ⟨block, List.mem_cons_of_mem _ hnext, hrelease⟩

/-- **A new stack** has one block, which is empty. -/
theorem initBinarystack_spec {preallocateSize : ℕ}
    (hinit : initBinarystack preallocateSize page = .ok stack) :
    (∃ header, Inv stack header []) ∧ bytes stack = [] := by
  unfold initBinarystack allocateblockBinarystack at hinit
  cases halloc : allocsize preallocateSize with
  | none =>
    rw [halloc] at hinit
    cases hinit
  | some memSize =>
    rw [halloc] at hinit
    cases page with
    | none => cases hinit
    | some addr =>
      obtain rfl := Except.ok.inj hinit
      have hle := allocsize_le halloc
      have hblocks : Blocks [⟨addr, memSize, 0⟩] :=
        ⟨by simp, by simp [Sound]; omega, by simp, List.pairwise_singleton _ _⟩
      have hinv := @inv_of_blocks _ _ hblocks 0
      exact ⟨⟨_, hinv⟩, hinv.bytes_eq⟩

end Calls

/-! ## Runs -/

/-- The calls on a stack. The parameter `page` of a push is the address of the page that is
allocated, if one is needed. -/
inductive Op
  | push (size : ℕ) (page : Option ℕ)
  | pop (size : ℕ) (release : ℕ → Bool)

/-- A call. -/
def call (stack : Binarystack) : Op → Result × Binarystack
  | .push size page => pushBinarystack stack size page
  | .pop size release => popBinarystack release stack size

/-- The addresses of the bytes after a call with the given result: a push puts the bytes of the new
object before the others, and a pop takes bytes off. -/
def bytesAfter (bytes : List ℕ) : Op → Result → List ℕ
  | .push size _, .pushed lastpushed => List.range' lastpushed size ++ bytes
  | .pop size _, .done => bytes.drop size
  | .pop size _, .error .release => bytes.drop size
  | _, _ => bytes

/-- A call on a stack whose bytes are recorded. -/
def step (s : Binarystack × List ℕ) (op : Op) : Result × (Binarystack × List ℕ) :=
  ((call s.1 op).1, (call s.1 op).2, bytesAfter s.2 op (call s.1 op).1)

/-- The allocator returns pages that do not overlap the blocks of the stack. -/
def Allowed (s : Binarystack × List ℕ) : Op → Prop
  | .push size page => ∀ addr ∈ page, Fresh s.1 size addr
  | .pop _ _ => True

/-- The stack has the bytes at the recorded addresses. -/
def Rep (s : Binarystack × List ℕ) : Prop :=
  (∃ header next, Inv s.1 header next) ∧ bytes s.1 = s.2

section Runs

variable {s : Binarystack × List ℕ} {op : Op}

theorem Inv.store {stack : Binarystack} {header : Blockheader} {next : List Blockheader}
    (h : Inv stack header next) :
    Inv { stack with headers := storeUsedsize stack } header next := by
  refine ⟨?_, h.blocks, h.blocksize_eq, h.free_eq, h.blockstart_eq⟩
  rw [storeUsedsize, h.headers_eq]
  dsimp only
  rw [← h.usedsize_eq]

/-- **A call** does to the bytes what it does to a list of addresses. -/
theorem step_spec (h : Rep s) (hop : Allowed s op) : Rep (step s op).2 := by
  obtain ⟨stack, l⟩ := s
  obtain ⟨⟨header, next, hinv⟩, hbytes⟩ := h
  dsimp only at hinv hbytes
  subst hbytes
  cases op with
  | push size page =>
    rcases pushBinarystack_spec hinv hop with ⟨e, heq, -⟩ | ⟨a, header', next', hres, hinv', hb⟩
    · have hcall : call stack (.push size page) = (.error e, stack) := heq
      unfold step
      rw [hcall]
      exact ⟨⟨header, next, hinv⟩, rfl⟩
    · have hcall : (call stack (.push size page)).1 = .pushed a := hres
      unfold step
      rw [hcall]
      exact ⟨⟨header', next', hinv'⟩, hb⟩
  | pop size release =>
    have hspec := popBinarystack_spec size release hinv
    unfold PopSpec at hspec
    split at hspec
    next hle =>
      obtain ⟨⟨header', next', hinv'⟩, hb, hdone | ⟨hrel, -⟩⟩ := hspec
      · have hcall : (call stack (.pop size release)).1 = .done := hdone
        unfold step
        rw [hcall]
        exact ⟨⟨header', next', hinv'⟩, hb⟩
      · have hcall : (call stack (.pop size release)).1 = .error .release := hrel
        unfold step
        rw [hcall]
        exact ⟨⟨header', next', hinv'⟩, hb⟩
    next hlt =>
      have hcall : call stack (.pop size release) =
          (.error .EINVAL, { stack with headers := storeUsedsize stack }) := hspec
      unfold step
      rw [hcall]
      exact ⟨⟨header, next, hinv.store⟩, by rw [hinv.store.bytes_eq, ← hinv.bytes_eq]; rfl⟩

/-- **Runs** keep the bytes. -/
theorem run_spec (h : Rep s) {ops : List Op} (hok : Along step Allowed s ops) :
    Rep (run step s ops).2 := by
  induction ops generalizing s with
  | nil => exact h
  | cons op ops ih => exact ih (step_spec h hok.1) hok.2

/-- **`binarystack.c` is a stack of bytes.** After any calls on a new stack, where the addresses of
the bytes have been recorded as the pushes returned them: no byte is there twice, all lie behind the
headers of the blocks, the size is their number, the stack is empty exactly if there are none, and
otherwise the top is the first of them. A push fails only without memory or for an object that no
block can hold, and changes nothing then. A pop of more bytes than there are fails, and nothing
changes that can be observed; another pop takes the bytes off, whatever errors the page cache
reports. -/
theorem binarystack_exact {preallocateSize : ℕ} {page : Option ℕ} {stack : Binarystack}
    (hinit : initBinarystack preallocateSize page = .ok stack) {ops : List Op}
    (hok : Along step Allowed (stack, []) ops) :
    let s := (run step (stack, []) ops).2
    s.2.Nodup ∧
      (∀ a ∈ s.2, ∃ header ∈ s.1.headers,
        header.addr + headersize ≤ a ∧ a < header.addr + header.size) ∧
      sizeBinarystack s.1 = s.2.length ∧ (isemptyBinarystack s.1 ↔ s.2 = []) ∧
      (s.2 ≠ [] → s.2.head? = some (topBinarystack s.1)) ∧
      (∀ size page, (∀ addr ∈ page, Fresh s.1 size addr) →
        (∃ lastpushed, (pushBinarystack s.1 size page).1 = .pushed lastpushed) ∨
        ∃ e, pushBinarystack s.1 size page = (.error e, s.1) ∧
          (page = none ∨ size > 1024 * 1024 - headersize)) ∧
      ∀ size release,
        (size ≤ s.2.length → (popBinarystack release s.1 size).1 = .done ∨
          (popBinarystack release s.1 size).1 = .error .release ∧
            ∃ header ∈ s.1.headers, release header.addr = false) ∧
        (s.2.length < size → (popBinarystack release s.1 size).1 = .error .EINVAL ∧
          bytes (popBinarystack release s.1 size).2 = s.2 ∧
          sizeBinarystack (popBinarystack release s.1 size).2 = sizeBinarystack s.1 ∧
          topBinarystack (popBinarystack release s.1 size).2 = topBinarystack s.1 ∧
          (isemptyBinarystack (popBinarystack release s.1 size).2 ↔ isemptyBinarystack s.1)) := by
  intro s
  obtain ⟨⟨header₀, hinv₀⟩, hempty⟩ := initBinarystack_spec hinit
  obtain ⟨⟨header, next, hinv⟩, hbytes⟩ := @run_spec (stack, []) ⟨⟨_, _, hinv₀⟩, hempty⟩ ops hok
  change Inv s.1 header next at hinv
  change bytes s.1 = s.2 at hbytes
  rw [← hbytes]
  refine ⟨?_, fun a ha => ?_, sizeBinarystack_eq hinv, isemptyBinarystack_iff hinv,
    topBinarystack_eq hinv, fun size page hfresh => ?_,
    fun size release => ⟨fun hle => ?_, fun hlt => ?_⟩⟩
  · rw [hinv.bytes_eq]
    exact hinv.blocks.nodup
  · rw [hinv.bytes_eq] at ha
    obtain ⟨block, hblock, ha⟩ := List.mem_flatMap.mp ha
    have hmem := mem_bytesBlockheader (hinv.blocks.sound block hblock) ha
    obtain ⟨usedsize, hheaders⟩ := hinv.exists_headers
    rw [hheaders]
    rcases List.mem_cons.mp hblock with rfl | hnext
    · exact ⟨_, List.mem_cons_self, hmem⟩
    · exact ⟨block, List.mem_cons_of_mem _ hnext, hmem⟩
  · exact (pushBinarystack_spec hinv hfresh).symm.imp (fun ⟨a, _, _, hpushed, _⟩ => ⟨a, hpushed⟩) id
  · have hspec := popBinarystack_spec size release hinv
    rw [PopSpec, if_pos hle] at hspec
    exact hspec.2.2
  · have hspec := popBinarystack_spec size release hinv
    rw [PopSpec, if_neg (Nat.not_le.mpr hlt)] at hspec
    rw [hspec]
    have hsame : bytes { s.1 with headers := storeUsedsize s.1 } = bytes s.1 := by
      rw [hinv.store.bytes_eq, hinv.bytes_eq]
    exact ⟨rfl, hsame, by rw [sizeBinarystack_eq hinv.store, sizeBinarystack_eq hinv, hsame], rfl,
      Iff.rfl⟩

/-- An object is pushed, the next one gets no memory, and a part of the first one is popped. -/
theorem binarystack_exact_part :
    ∃ stack, initBinarystack 100 (some 4096) = .ok stack ∧
      sizeBinarystack (run step (stack, [])
        [.push 8 none, .push 70000 none, .pop 3 fun _ => true]).2.1 = 5 := by
  have hinit : initBinarystack 100 (some 4096) =
      .ok ⟨65512, 65512, 4120, [⟨4096, 65536, 0⟩]⟩ := by rfl
  have hok : Along step Allowed (⟨65512, 65512, 4120, [⟨4096, 65536, 0⟩]⟩, [])
      [.push 8 none, .push 70000 none, .pop 3 fun _ => true] :=
    ⟨by simp [Allowed], by simp [Allowed], True.intro, True.intro⟩
  exact ⟨_, hinit, (binarystack_exact hinit hok).2.2.1⟩

end Runs

end Binarystack
end CKern
