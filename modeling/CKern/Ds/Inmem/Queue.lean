import CKern.Library.Tiling
import CKern.Library.Refinement
import Mathlib.Data.Nat.Log
import Mathlib.Data.Int.Basic

/-!
# `ds/inmem/queue.c`: queues of byte blocks

* `QueuePage`, `Queue`: pages with the offsets of their used bytes.
* `insertfirstQueue`, `insertlastQueue`, `removefirstQueue`, `removelastQueue`, `removeallQueue`,
  `firstQueue`, `lastQueue`, `sizebytesQueue`.
* `Holds`, `Layout`: the nodes on a page, and on all pages.
* `queue_exact`: the queue is a deque of blocks that do not overlap.
-/

namespace CKern

open Refinement Tiling

/-- The address of a page and the offsets in its header `queue_page_t`. The fields `next` and `prev`
are the place of the page in the list of its queue. -/
structure QueuePage where
  addr : ℕ
  endOffset : ℕ
  startOffset : ℕ
  deriving DecidableEq, Repr

/-- `queue_t`: the list of the pages, from the first one to `last`, and the size of a page as a value
of `pagesize_e`. -/
structure Queue where
  pages : List QueuePage
  pagesize : ℕ
  deriving DecidableEq, Repr

namespace Queue

/-- The error codes of the module. -/
inductive Errno
  | EINVAL
  | ENODATA
  | ENOMEM
  | EOVERFLOW
  deriving DecidableEq, Repr

/-- What a call returns: success, an error, the address of a new node, the address of a node or the
null pointer, or a size; or an assertion fails. -/
inductive Result
  | done
  | error (e : Errno)
  | newNode (nodeaddr : ℕ)
  | node (nodeaddr : Option ℕ)
  | size (n : ℕ)
  | assertion
  deriving DecidableEq, Repr

/-- `sizeof(queue_page_t)`. -/
def sizeofQueuePage : ℕ := 32

/-! ## A page -/

/-- `isempty_queuepage`. -/
def isemptyQueuepage (qpage : QueuePage) : Prop := qpage.endOffset = qpage.startOffset

instance (qpage : QueuePage) : Decidable (isemptyQueuepage qpage) :=
  inferInstanceAs (Decidable (qpage.endOffset = qpage.startOffset))

/-- `pushfirst_queuepage`: the address of the node and the page, or `ENOMEM`. -/
def pushfirstQueuepage (qpage : QueuePage) (nodesize : ℕ) : Option (ℕ × QueuePage) :=
  let newStart : ℤ := qpage.startOffset - nodesize
  if sizeofQueuePage > newStart then none
  else
    let qpage := { qpage with startOffset := newStart.toNat % 2 ^ 16 }
    some (qpage.addr + qpage.startOffset, qpage)

/-- `pushlast_queuepage`: the address of the node and the page, or `ENOMEM`. -/
def pushlastQueuepage (qpage : QueuePage) (pagesize nodesize : ℕ) : Option (ℕ × QueuePage) :=
  let newEnd := qpage.endOffset + nodesize
  if pagesize < newEnd then none
  else some (qpage.addr + qpage.endOffset, { qpage with endOffset := newEnd % 2 ^ 16 })

/-- `removefirst_queuepage`: the page, or `EOVERFLOW`. -/
def removefirstQueuepage (qpage : QueuePage) (nodesize : ℕ) : Option QueuePage :=
  let newStart := qpage.startOffset + nodesize
  if qpage.endOffset < newStart then none
  else some { qpage with startOffset := newStart % 2 ^ 16 }

/-- `removelast_queuepage`: the page, or `EOVERFLOW`. -/
def removelastQueuepage (qpage : QueuePage) (nodesize : ℕ) : Option QueuePage :=
  let newEnd : ℤ := qpage.endOffset - nodesize
  if qpage.startOffset > newEnd then none
  else some { qpage with endOffset := newEnd.toNat % 2 ^ 16 }

/-! ## The queue -/

/-- `issupported`. -/
def issupported (pagesizeInBytes : ℕ) : Prop :=
  256 ≤ pagesizeInBytes ∧ pagesizeInBytes ≤ 16384 ∧ (pagesizeInBytes - 1) &&& pagesizeInBytes = 0

instance (pagesizeInBytes : ℕ) : Decidable (issupported pagesizeInBytes) :=
  inferInstanceAs (Decidable (_ ∧ _))

/-- `init_queue`, with `pagesizefrombytes_pagecache`; no queue is initialized if the size is not
supported. -/
def initQueue (pagesize : ℕ) : Option Queue :=
  if issupported pagesize then
    let sz := pagesize / 256
    some ⟨[], Nat.log2 (if sz = 0 then sz + 1 else sz)⟩
  else none

/-- `pagesize_queue`. -/
def pagesizeQueue (queue : Queue) : ℕ := (256 <<< queue.pagesize) % 2 ^ 16

/-- `maxelemsize_queue`. -/
def maxelemsizeQueue (pagesize : ℕ) : ℕ := (pagesize - sizeofQueuePage) % 2 ^ 16

/-- `isempty_queue`. -/
def isemptyQueue (queue : Queue) : Prop := queue.pages = []

/-- `first_queue`. -/
def firstQueue (queue : Queue) (nodesize : ℕ) : Option ℕ :=
  match queue.pages.head? with
  | none => none
  | some first =>
    if (first.endOffset : ℤ) - first.startOffset ≥ nodesize then some (first.addr + first.startOffset)
    else none

/-- `last_queue`. -/
def lastQueue (queue : Queue) (nodesize : ℕ) : Option ℕ :=
  match queue.pages.getLast? with
  | none => none
  | some last =>
    if (last.endOffset : ℤ) - last.startOffset ≥ nodesize then
      some (last.addr + last.endOffset - nodesize)
    else none

/-- `sizebytes_queue`: the loop begins at the last page, and goes on to the first one. -/
def sizebytesQueue (queue : Queue) : ℕ :=
  (queue.pages.getLast?.toList ++ queue.pages.dropLast).foldl
    (fun size next => size + next.endOffset - next.startOffset) 0

/-- The part of `insertfirst_queue` that begins with `addfirstpage_queue`. The new page is `page`,
unless it is not allocated. -/
def insertfirstNewpage (queue : Queue) (nodesize : ℕ) (page : Option ℕ) : Result × Queue :=
  match page with
  | none => (.error .ENOMEM, queue)
  | some addr =>
    let pagesize := pagesizeQueue queue
    match pushfirstQueuepage ⟨addr, pagesize, pagesize⟩ nodesize with
    | none => (.assertion, queue)
    | some (nodeaddr, first) => (.newNode nodeaddr, { queue with pages := first :: queue.pages })

/-- `insertfirst_queue`. -/
def insertfirstQueue (queue : Queue) (nodesize : ℕ) (page : Option ℕ) : Result × Queue :=
  match queue.pages with
  | [] => insertfirstNewpage queue nodesize page
  | first :: pages =>
    match pushfirstQueuepage first nodesize with
    | none => insertfirstNewpage queue nodesize page
    | some (nodeaddr, first) => (.newNode nodeaddr, { queue with pages := first :: pages })

/-- The part of `insertlast_queue` that begins with `addlastpage_queue`. -/
def insertlastNewpage (queue : Queue) (nodesize : ℕ) (page : Option ℕ) : Result × Queue :=
  match page with
  | none => (.error .ENOMEM, queue)
  | some addr =>
    match pushlastQueuepage ⟨addr, sizeofQueuePage, sizeofQueuePage⟩ (pagesizeQueue queue)
        nodesize with
    | none => (.assertion, queue)
    | some (nodeaddr, last) => (.newNode nodeaddr, { queue with pages := queue.pages ++ [last] })

/-- `insertlast_queue`. -/
def insertlastQueue (queue : Queue) (nodesize : ℕ) (page : Option ℕ) : Result × Queue :=
  match queue.pages.getLast? with
  | none => insertlastNewpage queue nodesize page
  | some last =>
    match pushlastQueuepage last (pagesizeQueue queue) nodesize with
    | none => insertlastNewpage queue nodesize page
    | some (nodeaddr, last) =>
      (.newNode nodeaddr, { queue with pages := queue.pages.dropLast ++ [last] })

/-- `removefirst_queue`. -/
def removefirstQueue (queue : Queue) (nodesize : ℕ) : Result × Queue :=
  match queue.pages with
  | [] => (.error .ENODATA, queue)
  | first :: pages =>
    match removefirstQueuepage first nodesize with
    | none => (.error .EOVERFLOW, queue)
    | some first =>
      if isemptyQueuepage first then (.done, { queue with pages := pages })
      else (.done, { queue with pages := first :: pages })

/-- `removelast_queue`. -/
def removelastQueue (queue : Queue) (nodesize : ℕ) : Result × Queue :=
  match queue.pages.getLast? with
  | none => (.error .ENODATA, queue)
  | some last =>
    match removelastQueuepage last nodesize with
    | none => (.error .EOVERFLOW, queue)
    | some last =>
      if isemptyQueuepage last then (.done, { queue with pages := queue.pages.dropLast })
      else (.done, { queue with pages := queue.pages.dropLast ++ [last] })

/-- `removeall_queue`. -/
def removeallQueue (queue : Queue) : Result × Queue := (.done, { queue with pages := [] })

/-! ## The nodes of a page -/

/-- The used bytes of a page are tiled with nodes. -/
structure Fits (pagesize : ℕ) (qpage : QueuePage) (nodes : List Block) : Prop where
  start_ge : sizeofQueuePage ≤ qpage.startOffset
  end_le : qpage.endOffset ≤ pagesize
  tiles : Tiles (qpage.addr + qpage.startOffset) nodes (qpage.addr + qpage.endOffset)

section Page

variable {pagesize nodesize : ℕ} {qpage : QueuePage} {n : Block} {nodes : List Block}

theorem Fits.start_le (h : Fits pagesize qpage nodes) : qpage.startOffset ≤ qpage.endOffset := by
  have := h.tiles.le
  omega

theorem Fits.sum_size (h : Fits pagesize qpage nodes) :
    (nodes.map Block.size).sum = qpage.endOffset - qpage.startOffset := by
  have := h.tiles.sum_size
  omega

theorem Fits.isempty_iff (h : Fits pagesize qpage nodes) : isemptyQueuepage qpage ↔ nodes = [] := by
  unfold isemptyQueuepage
  constructor
  · intro hempty
    by_contra hne
    have := h.tiles.lt hne
    omega
  · rintro rfl
    have hend : qpage.addr + qpage.startOffset = qpage.addr + qpage.endOffset := h.tiles
    omega

theorem Fits.within (h : Fits pagesize qpage nodes) (hn : n ∈ nodes) :
    qpage.addr + sizeofQueuePage ≤ n.start ∧ n.start + n.size ≤ qpage.addr + pagesize := by
  have hwithin := h.tiles.within hn
  have hstart := h.start_ge
  have hend := h.end_le
  omega

theorem pushfirstQueuepage_spec (h : Fits pagesize qpage nodes) (hpage : pagesize ≤ 16384)
    (hsize : 0 < nodesize) :
    pushfirstQueuepage qpage nodesize = none ∧ qpage.startOffset < sizeofQueuePage + nodesize ∨
      ∃ nodeaddr qpage', pushfirstQueuepage qpage nodesize = some (nodeaddr, qpage') ∧
        qpage'.addr = qpage.addr ∧ Fits pagesize qpage' (⟨nodeaddr, nodesize⟩ :: nodes) := by
  have hle := h.start_le
  have hend := h.end_le
  unfold pushfirstQueuepage
  dsimp only
  split
  next hno => exact Or.inl ⟨rfl, by omega⟩
  next hroom =>
    have hstart : ((qpage.startOffset : ℤ) - nodesize).toNat % 2 ^ 16 =
        qpage.startOffset - nodesize := by omega
    rw [hstart]
    refine Or.inr ⟨_, _, rfl, rfl, by dsimp only; omega, hend, rfl, hsize, ?_⟩
    have hsum : qpage.addr + (qpage.startOffset - nodesize) + nodesize =
        qpage.addr + qpage.startOffset := by omega
    dsimp only
    rw [hsum]
    exact h.tiles

theorem pushlastQueuepage_spec (h : Fits pagesize qpage nodes) (hpage : pagesize ≤ 16384)
    (hsize : 0 < nodesize) :
    pushlastQueuepage qpage pagesize nodesize = none ∧ pagesize < qpage.endOffset + nodesize ∨
      ∃ nodeaddr qpage', pushlastQueuepage qpage pagesize nodesize = some (nodeaddr, qpage') ∧
        qpage'.addr = qpage.addr ∧ Fits pagesize qpage' (nodes ++ [⟨nodeaddr, nodesize⟩]) := by
  unfold pushlastQueuepage
  dsimp only
  split
  next hno => exact Or.inl ⟨rfl, hno⟩
  next hroom =>
    rw [Nat.mod_eq_of_lt (by omega)]
    refine Or.inr ⟨_, _, rfl, rfl, h.start_ge, by dsimp only; omega, tiles_concat.mpr ?_⟩
    exact ⟨h.tiles, hsize, by dsimp only; omega⟩

theorem removefirstQueuepage_spec (h : Fits pagesize qpage (n :: nodes)) (hpage : pagesize ≤ 16384) :
    ∃ qpage', removefirstQueuepage qpage n.size = some qpage' ∧ qpage'.addr = qpage.addr ∧
      Fits pagesize qpage' nodes := by
  obtain ⟨-, hsize, htiles⟩ := h.tiles
  have hle := htiles.le
  have hend := h.end_le
  have hstart := h.start_ge
  unfold removefirstQueuepage
  dsimp only
  rw [if_neg (by omega), Nat.mod_eq_of_lt (by omega)]
  refine ⟨_, rfl, rfl, by dsimp only; omega, hend, ?_⟩
  dsimp only
  rwa [← Nat.add_assoc]

theorem removelastQueuepage_spec (h : Fits pagesize qpage (nodes ++ [n]))
    (hpage : pagesize ≤ 16384) :
    ∃ qpage', removelastQueuepage qpage n.size = some qpage' ∧ qpage'.addr = qpage.addr ∧
      Fits pagesize qpage' nodes := by
  obtain ⟨htiles, hsize, hlast⟩ := tiles_concat.mp h.tiles
  have hle := htiles.le
  have hend := h.end_le
  have hstart := h.start_ge
  unfold removelastQueuepage
  dsimp only
  have hnew : ((qpage.endOffset : ℤ) - n.size).toNat % 2 ^ 16 = qpage.endOffset - n.size := by omega
  rw [if_neg (by omega), hnew]
  refine ⟨_, rfl, rfl, hstart, by dsimp only; omega, ?_⟩
  have hsum : qpage.addr + (qpage.endOffset - n.size) = n.start := by omega
  dsimp only
  rwa [hsum]

end Page

/-! ## The nodes of a queue -/

/-- The pages with their nodes: every page has nodes, and no two pages overlap. -/
structure Layout (pagesize : ℕ) (layout : List (QueuePage × List Block)) : Prop where
  fits : ∀ p ∈ layout, Fits pagesize p.1 p.2
  ne_nil : ∀ p ∈ layout, p.2 ≠ []
  aligned : ∀ p ∈ layout, pagesize ∣ p.1.addr
  nodup : (layout.map fun p => p.1.addr).Nodup

/-- The queue has the nodes, from the first to the last one, on pages with a size that is supported. -/
def Rep (queue : Queue) (nodes : List Block) : Prop :=
  queue.pagesize ≤ 6 ∧ ∃ layout, Layout (pagesizeQueue queue) layout ∧
    queue.pages = layout.map Prod.fst ∧ nodes = layout.flatMap Prod.snd

/-- An address that the allocator may return for a new page: it is aligned to the size of a page, and
no page of the queue is there. -/
def Fresh (queue : Queue) (addr : ℕ) : Prop :=
  pagesizeQueue queue ∣ addr ∧ ∀ p ∈ queue.pages, p.addr ≠ addr

section Layouts

variable {pagesize nodesize addr : ℕ} {queue : Queue} {qpage qpage' : QueuePage}
  {nodes nodes' : List Block} {layout : List (QueuePage × List Block)}

theorem pagesizeQueue_le (h : queue.pagesize ≤ 6) :
    256 ≤ pagesizeQueue queue ∧ pagesizeQueue queue ≤ 16384 := by
  have hall : ∀ e ≤ 6, 256 ≤ (256 <<< e) % 2 ^ 16 ∧ (256 <<< e) % 2 ^ 16 ≤ 16384 := by decide
  exact hall queue.pagesize h

theorem Layout.nil : Layout pagesize [] :=
  ⟨by simp, by simp, by simp, by simp⟩

theorem layout_cons_iff : Layout pagesize ((qpage, nodes) :: layout) ↔
    (Fits pagesize qpage nodes ∧ nodes ≠ [] ∧ pagesize ∣ qpage.addr ∧
      ∀ p ∈ layout, p.1.addr ≠ qpage.addr) ∧ Layout pagesize layout := by
  constructor
  · rintro ⟨hfits, hne, haligned, hnodup⟩
    rw [List.map_cons, List.nodup_cons, List.mem_map] at hnodup
    rw [List.forall_mem_cons] at hfits hne haligned
    exact ⟨⟨hfits.1, hne.1, haligned.1, fun p hp heq => hnodup.1 ⟨p, hp, heq⟩⟩,
      hfits.2, hne.2, haligned.2, hnodup.2⟩
  · rintro ⟨⟨hfits, hne, haligned, hnew⟩, h⟩
    refine ⟨List.forall_mem_cons.mpr ⟨hfits, h.fits⟩, List.forall_mem_cons.mpr ⟨hne, h.ne_nil⟩,
      List.forall_mem_cons.mpr ⟨haligned, h.aligned⟩, ?_⟩
    rw [List.map_cons, List.nodup_cons, List.mem_map]
    refine ⟨?_, h.nodup⟩
    rintro ⟨p, hp, heq⟩
    exact hnew p hp heq

theorem layout_concat_iff : Layout pagesize (layout ++ [(qpage, nodes)]) ↔
    Layout pagesize ((qpage, nodes) :: layout) := by
  have hmem : ∀ p, p ∈ layout ++ [(qpage, nodes)] ↔ p ∈ (qpage, nodes) :: layout := by
    intro p
    rw [List.mem_append, List.mem_singleton, List.mem_cons, or_comm]
  have hnodup : ((layout ++ [(qpage, nodes)]).map fun p => p.1.addr).Nodup ↔
      (((qpage, nodes) :: layout).map fun p => p.1.addr).Nodup :=
    ((List.perm_append_singleton _ _).map _).nodup_iff
  constructor
  · rintro ⟨hfits, hne, haligned, hn⟩
    exact ⟨fun p hp => hfits p ((hmem p).mpr hp), fun p hp => hne p ((hmem p).mpr hp),
      fun p hp => haligned p ((hmem p).mpr hp), hnodup.mp hn⟩
  · rintro ⟨hfits, hne, haligned, hn⟩
    exact ⟨fun p hp => hfits p ((hmem p).mp hp), fun p hp => hne p ((hmem p).mp hp),
      fun p hp => haligned p ((hmem p).mp hp), hnodup.mpr hn⟩

theorem Layout.replace (h : Layout pagesize ((qpage, nodes) :: layout))
    (haddr : qpage'.addr = qpage.addr) (hfits : Fits pagesize qpage' nodes') (hne : nodes' ≠ []) :
    Layout pagesize ((qpage', nodes') :: layout) := by
  obtain ⟨⟨-, -, haligned, hnew⟩, hrest⟩ := layout_cons_iff.mp h
  exact layout_cons_iff.mpr ⟨⟨hfits, hne, haddr ▸ haligned, haddr ▸ hnew⟩, hrest⟩

theorem Layout.tail (h : Layout pagesize ((qpage, nodes) :: layout)) : Layout pagesize layout :=
  (layout_cons_iff.mp h).2

theorem Layout.fits_head (h : Layout pagesize ((qpage, nodes) :: layout)) :
    Fits pagesize qpage nodes := (layout_cons_iff.mp h).1.1

end Layouts

/-! ## The calls -/

section Calls

variable {nodesize : ℕ} {queue : Queue} {nodes : List Block} {page : Option ℕ}

/-- What an insertion returns: the address of the node, unless a page is needed and not allocated. -/
def InsertSpec (queue : Queue) (page : Option ℕ) (after : ℕ → List Block)
    (result : Result × Queue) : Prop :=
  (page = none ∧ result = (.error .ENOMEM, queue)) ∨
    ∃ nodeaddr, result.1 = .newNode nodeaddr ∧ Rep result.2 (after nodeaddr)

theorem insertfirstNewpage_spec (h : Rep queue nodes) (hsize : 0 < nodesize)
    (hmax : nodesize ≤ maxelemsizeQueue (pagesizeQueue queue))
    (hfresh : ∀ addr ∈ page, Fresh queue addr) :
    InsertSpec queue page (fun nodeaddr => ⟨nodeaddr, nodesize⟩ :: nodes)
      (insertfirstNewpage queue nodesize page) := by
  obtain ⟨hpagesize, layout, hlayout, hpages, rfl⟩ := h
  have hps := pagesizeQueue_le hpagesize
  cases page with
  | none => exact Or.inl ⟨rfl, rfl⟩
  | some addr =>
    obtain ⟨haligned, hnew⟩ := hfresh addr rfl
    unfold maxelemsizeQueue at hmax
    have hempty : Fits (pagesizeQueue queue) ⟨addr, pagesizeQueue queue, pagesizeQueue queue⟩ [] :=
      ⟨by unfold sizeofQueuePage; dsimp only; omega, Nat.le_refl _, rfl⟩
    rcases pushfirstQueuepage_spec hempty hps.2 hsize with
      ⟨-, hno⟩ | ⟨nodeaddr, qpage', hpush, haddr, hfits⟩
    · dsimp only at hno
      unfold sizeofQueuePage at hno hmax
      omega
    · refine Or.inr ⟨nodeaddr, ?_, ?_⟩
      · unfold insertfirstNewpage
        dsimp only
        rw [hpush]
      · unfold insertfirstNewpage
        dsimp only
        rw [hpush]
        refine ⟨hpagesize, (qpage', [⟨nodeaddr, nodesize⟩]) :: layout, layout_cons_iff.mpr
          ⟨⟨hfits, by simp, haddr ▸ haligned, fun p hp => ?_⟩, hlayout⟩, ?_, rfl⟩
        · rw [haddr]
          exact hnew p.1 (by rw [hpages]; exact List.mem_map_of_mem hp)
        · rw [hpages]
          rfl

/-- **Insertion** at the front. -/
theorem insertfirstQueue_spec (h : Rep queue nodes) (hsize : 0 < nodesize)
    (hmax : nodesize ≤ maxelemsizeQueue (pagesizeQueue queue))
    (hfresh : ∀ addr ∈ page, Fresh queue addr) :
    InsertSpec queue page (fun nodeaddr => ⟨nodeaddr, nodesize⟩ :: nodes)
      (insertfirstQueue queue nodesize page) := by
  have hspec := insertfirstNewpage_spec h hsize hmax hfresh
  obtain ⟨hpagesize, layout, hlayout, hpages, rfl⟩ := h
  unfold insertfirstQueue
  rcases layout with - | ⟨⟨first, group⟩, layout⟩
  · rw [hpages]
    exact hspec
  · rw [hpages, List.map_cons]
    dsimp only
    rcases pushfirstQueuepage_spec hlayout.fits_head (pagesizeQueue_le hpagesize).2 hsize with
      ⟨hpush, -⟩ | ⟨nodeaddr, qpage', hpush, haddr, hfits⟩
    · rw [hpush]
      exact hspec
    · rw [hpush]
      exact Or.inr ⟨nodeaddr, rfl, hpagesize, (qpage', ⟨nodeaddr, nodesize⟩ :: group) :: layout,
        hlayout.replace haddr hfits (by simp), rfl, rfl⟩

theorem insertlastNewpage_spec (h : Rep queue nodes) (hsize : 0 < nodesize)
    (hmax : nodesize ≤ maxelemsizeQueue (pagesizeQueue queue))
    (hfresh : ∀ addr ∈ page, Fresh queue addr) :
    InsertSpec queue page (fun nodeaddr => nodes ++ [⟨nodeaddr, nodesize⟩])
      (insertlastNewpage queue nodesize page) := by
  obtain ⟨hpagesize, layout, hlayout, hpages, rfl⟩ := h
  have hps := pagesizeQueue_le hpagesize
  cases page with
  | none => exact Or.inl ⟨rfl, rfl⟩
  | some addr =>
    obtain ⟨haligned, hnew⟩ := hfresh addr rfl
    unfold maxelemsizeQueue at hmax
    have hempty : Fits (pagesizeQueue queue) ⟨addr, sizeofQueuePage, sizeofQueuePage⟩ [] :=
      ⟨Nat.le_refl _, by unfold sizeofQueuePage; dsimp only; omega, rfl⟩
    rcases pushlastQueuepage_spec hempty hps.2 hsize with
      ⟨-, hno⟩ | ⟨nodeaddr, qpage', hpush, haddr, hfits⟩
    · dsimp only at hno
      unfold sizeofQueuePage at hno hmax
      omega
    · refine Or.inr ⟨nodeaddr, ?_, ?_⟩
      · unfold insertlastNewpage
        dsimp only
        rw [hpush]
      · unfold insertlastNewpage
        dsimp only
        rw [hpush]
        rw [List.nil_append] at hfits
        have hnew' : Layout (pagesizeQueue queue) ((qpage', [⟨nodeaddr, nodesize⟩]) :: layout) := by
          refine layout_cons_iff.mpr ⟨⟨hfits, by simp, haddr ▸ haligned, fun p hp => ?_⟩, hlayout⟩
          rw [haddr]
          exact hnew p.1 (by rw [hpages]; exact List.mem_map_of_mem hp)
        refine ⟨hpagesize, layout ++ [(qpage', [⟨nodeaddr, nodesize⟩])], ?_, ?_, ?_⟩
        · exact layout_concat_iff.mpr hnew'
        · rw [hpages, List.map_append]
          rfl
        · rw [List.flatMap_append]
          rfl

/-- **Insertion** at the back. -/
theorem insertlastQueue_spec (h : Rep queue nodes) (hsize : 0 < nodesize)
    (hmax : nodesize ≤ maxelemsizeQueue (pagesizeQueue queue))
    (hfresh : ∀ addr ∈ page, Fresh queue addr) :
    InsertSpec queue page (fun nodeaddr => nodes ++ [⟨nodeaddr, nodesize⟩])
      (insertlastQueue queue nodesize page) := by
  have hspec := insertlastNewpage_spec h hsize hmax hfresh
  obtain ⟨hpagesize, layout, hlayout, hpages, rfl⟩ := h
  unfold insertlastQueue
  rcases List.eq_nil_or_concat layout with rfl | ⟨layout, ⟨last, group⟩, rfl⟩
  · rw [hpages]
    exact hspec
  · rw [List.concat_eq_append] at hlayout hpages hspec ⊢
    rw [layout_concat_iff] at hlayout
    rw [hpages, List.map_append, List.map_singleton, List.getLast?_concat, List.dropLast_concat]
    dsimp only
    rcases pushlastQueuepage_spec hlayout.fits_head (pagesizeQueue_le hpagesize).2 hsize with
      ⟨hpush, -⟩ | ⟨nodeaddr, qpage', hpush, haddr, hfits⟩
    · rw [hpush]
      exact hspec
    · rw [hpush]
      refine Or.inr ⟨nodeaddr, rfl, hpagesize,
        layout ++ [(qpage', group ++ [⟨nodeaddr, nodesize⟩])],
        layout_concat_iff.mpr (hlayout.replace haddr hfits (by simp)), ?_, ?_⟩
      · rw [List.map_append]
        rfl
      · simp

/-- **Removal** at the front. -/
theorem removefirstQueue_spec {n : Block} (h : Rep queue (n :: nodes)) :
    (removefirstQueue queue n.size).1 = .done ∧ Rep (removefirstQueue queue n.size).2 nodes := by
  obtain ⟨hpagesize, layout, hlayout, hpages, hnodes⟩ := h
  unfold removefirstQueue
  rcases layout with - | ⟨⟨first, group⟩, layout⟩
  · cases hnodes
  · rw [hpages, List.map_cons]
    dsimp only
    obtain ⟨m, group, rfl⟩ := List.exists_cons_of_ne_nil (layout_cons_iff.mp hlayout).1.2.1
    obtain ⟨rfl, hrest⟩ := List.cons_eq_cons.mp hnodes
    obtain ⟨qpage', hremove, haddr, hfits⟩ :=
      removefirstQueuepage_spec hlayout.fits_head (pagesizeQueue_le hpagesize).2
    rw [hremove]
    dsimp only
    split
    next hempty =>
      rw [hfits.isempty_iff.mp hempty] at hrest
      exact ⟨rfl, hpagesize, layout, hlayout.tail, rfl, hrest⟩
    next hne =>
      rw [hfits.isempty_iff] at hne
      exact ⟨rfl, hpagesize, (qpage', group) :: layout, hlayout.replace haddr hfits hne, rfl, hrest⟩

/-- **Removal** at the back. -/
theorem removelastQueue_spec {n : Block} (h : Rep queue (nodes ++ [n])) :
    (removelastQueue queue n.size).1 = .done ∧ Rep (removelastQueue queue n.size).2 nodes := by
  obtain ⟨hpagesize, layout, hlayout, hpages, hnodes⟩ := h
  unfold removelastQueue
  rcases List.eq_nil_or_concat layout with rfl | ⟨layout, ⟨last, group⟩, rfl⟩
  · simp at hnodes
  · rw [List.concat_eq_append] at hlayout hpages hnodes
    rw [layout_concat_iff] at hlayout
    obtain ⟨group, m, rfl⟩ :=
      (List.eq_nil_or_concat group).resolve_left (layout_cons_iff.mp hlayout).1.2.1
    rw [List.concat_eq_append] at hlayout hnodes
    rw [List.flatMap_append, List.flatMap_singleton, ← List.append_assoc] at hnodes
    obtain ⟨hrest, hm⟩ := List.append_inj' hnodes rfl
    obtain rfl : n = m := by simpa using hm
    obtain ⟨qpage', hremove, haddr, hfits⟩ :=
      removelastQueuepage_spec hlayout.fits_head (pagesizeQueue_le hpagesize).2
    rw [hpages, List.map_append, List.map_singleton, List.getLast?_concat, List.dropLast_concat]
    dsimp only
    rw [hremove]
    dsimp only
    split
    next hempty =>
      rw [hfits.isempty_iff.mp hempty, List.append_nil] at hrest
      exact ⟨rfl, hpagesize, layout, hlayout.tail, rfl, hrest⟩
    next hne =>
      rw [hfits.isempty_iff] at hne
      refine ⟨rfl, hpagesize, layout ++ [(qpage', group)],
        layout_concat_iff.mpr (hlayout.replace haddr hfits hne), ?_, ?_⟩
      · rw [List.map_append]
        rfl
      · rw [List.flatMap_append, List.flatMap_singleton, hrest]

theorem isemptyQueue_iff (h : Rep queue nodes) : isemptyQueue queue ↔ nodes = [] := by
  obtain ⟨hpagesize, layout, hlayout, hpages, rfl⟩ := h
  unfold isemptyQueue
  rw [hpages, List.map_eq_nil_iff]
  constructor
  · rintro rfl
    rfl
  · intro hnodes
    rw [List.flatMap_eq_nil_iff] at hnodes
    exact List.eq_nil_iff_forall_not_mem.mpr fun p hp => hlayout.ne_nil p hp (hnodes p hp)

theorem firstQueue_nil (h : Rep queue []) : firstQueue queue nodesize = none := by
  have hempty : queue.pages = [] := (isemptyQueue_iff h).mpr rfl
  unfold firstQueue
  rw [hempty, List.head?_nil]

theorem lastQueue_nil (h : Rep queue []) : lastQueue queue nodesize = none := by
  have hempty : queue.pages = [] := (isemptyQueue_iff h).mpr rfl
  unfold lastQueue
  rw [hempty, List.getLast?_nil]

theorem firstQueue_cons {n : Block} (h : Rep queue (n :: nodes)) :
    firstQueue queue n.size = some n.start := by
  obtain ⟨hpagesize, layout, hlayout, hpages, hnodes⟩ := h
  unfold firstQueue
  rcases layout with - | ⟨⟨first, group⟩, layout⟩
  · cases hnodes
  · rw [hpages, List.map_cons, List.head?_cons]
    dsimp only
    obtain ⟨m, group, rfl⟩ := List.exists_cons_of_ne_nil (layout_cons_iff.mp hlayout).1.2.1
    obtain ⟨rfl, -⟩ := List.cons_eq_cons.mp hnodes
    obtain ⟨hstart, -, htiles⟩ := hlayout.fits_head.tiles
    have hle := htiles.le
    rw [if_pos (by omega), hstart]

theorem lastQueue_concat {n : Block} (h : Rep queue (nodes ++ [n])) :
    lastQueue queue n.size = some n.start := by
  obtain ⟨hpagesize, layout, hlayout, hpages, hnodes⟩ := h
  unfold lastQueue
  rcases List.eq_nil_or_concat layout with rfl | ⟨layout, ⟨last, group⟩, rfl⟩
  · simp at hnodes
  · rw [List.concat_eq_append] at hlayout hpages hnodes
    rw [layout_concat_iff] at hlayout
    obtain ⟨group, m, rfl⟩ :=
      (List.eq_nil_or_concat group).resolve_left (layout_cons_iff.mp hlayout).1.2.1
    rw [List.concat_eq_append] at hlayout hnodes
    rw [List.flatMap_append, List.flatMap_singleton, ← List.append_assoc] at hnodes
    obtain rfl : n = m := by simpa using (List.append_inj' hnodes rfl).2
    obtain ⟨htiles, -, hend⟩ := tiles_concat.mp hlayout.fits_head.tiles
    have hle := htiles.le
    rw [hpages, List.map_append, List.map_singleton, List.getLast?_concat]
    dsimp only
    rw [if_pos (by omega)]
    refine congrArg some ?_
    omega

theorem foldl_size_eq {layout : List (QueuePage × List Block)} {pagesize : ℕ}
    (h : ∀ p ∈ layout, Fits pagesize p.1 p.2) (size : ℕ) :
    (layout.map Prod.fst).foldl (fun size next => size + next.endOffset - next.startOffset) size =
      size + ((layout.flatMap Prod.snd).map Block.size).sum := by
  induction layout generalizing size with
  | nil => rfl
  | cons p layout ih =>
    rw [List.forall_mem_cons] at h
    have hle := h.1.start_le
    rw [List.map_cons, List.foldl_cons, ih h.2, List.flatMap_cons, List.map_append, List.sum_append,
      h.1.sum_size]
    omega

theorem sizebytesQueue_eq (h : Rep queue nodes) :
    sizebytesQueue queue = (nodes.map Block.size).sum := by
  obtain ⟨hpagesize, layout, hlayout, hpages, rfl⟩ := h
  unfold sizebytesQueue
  rcases List.eq_nil_or_concat layout with rfl | ⟨layout, last, rfl⟩
  · rw [hpages]
    rfl
  · rw [List.concat_eq_append] at hlayout hpages ⊢
    have hfold := foldl_size_eq (layout_concat_iff.mp hlayout).fits 0
    rw [hpages, List.map_append, List.map_singleton, List.getLast?_concat, List.dropLast_concat]
    refine hfold.trans ?_
    rw [Nat.zero_add]
    exact (((List.perm_append_singleton last layout).flatMap_right Prod.snd).map
      Block.size).sum_eq.symm

theorem Rep.apart (h : Rep queue nodes) : nodes.Pairwise Block.Apart ∧
    (∀ n ∈ nodes, ∃ p ∈ queue.pages, p.addr + sizeofQueuePage ≤ n.start ∧
      n.start + n.size ≤ p.addr + pagesizeQueue queue) ∧
    ∀ p ∈ queue.pages, ∃ n ∈ nodes, p.addr + sizeofQueuePage ≤ n.start ∧
      n.start + n.size ≤ p.addr + pagesizeQueue queue := by
  obtain ⟨hpagesize, layout, hlayout, hpages, rfl⟩ := h
  refine ⟨List.pairwise_flatMap.mpr ⟨fun p hp => (hlayout.fits p hp).tiles.pairwise, ?_⟩,
    fun n hn => ?_, fun p hp => ?_⟩
  · -- two pages of the list are at different multiples of the size of a page
    refine (List.pairwise_map.mp hlayout.nodup).imp_of_mem fun {p q} hp hq hne x hx y hy => ?_
    have hxp := (hlayout.fits p hp).within hx
    have hyq := (hlayout.fits q hq).within hy
    obtain ⟨k, hk⟩ := hlayout.aligned p hp
    obtain ⟨l, hl⟩ := hlayout.aligned q hq
    unfold Block.Apart
    have hkl : k ≠ l := by
      rintro rfl
      exact hne (hk.trans hl.symm)
    rcases Nat.lt_or_gt_of_ne hkl with hlt | hlt
    · have := Nat.mul_le_mul_left (pagesizeQueue queue) hlt
      rw [Nat.mul_succ] at this
      omega
    · have := Nat.mul_le_mul_left (pagesizeQueue queue) hlt
      rw [Nat.mul_succ] at this
      omega
  · obtain ⟨p, hp, hn⟩ := List.mem_flatMap.mp hn
    exact ⟨p.1, by rw [hpages]; exact List.mem_map_of_mem hp, (hlayout.fits p hp).within hn⟩
  · rw [hpages] at hp
    obtain ⟨q, hq, rfl⟩ := List.mem_map.mp hp
    obtain ⟨n, hn⟩ := List.exists_mem_of_ne_nil _ (hlayout.ne_nil q hq)
    exact ⟨n, List.mem_flatMap.mpr ⟨q, hq, hn⟩, (hlayout.fits q hq).within hn⟩

end Calls

/-- **A new queue** is empty, and has pages of the given size. -/
theorem initQueue_spec {pagesize : ℕ} {queue : Queue} (hinit : initQueue pagesize = some queue) :
    pagesizeQueue queue = pagesize ∧ Rep queue [] := by
  unfold initQueue at hinit
  split at hinit
  swap
  · cases hinit
  next hsupported =>
    obtain ⟨hlow, hhigh, hand⟩ := hsupported
    obtain ⟨k, rfl⟩ : pagesize.isPowerOfTwo :=
      (Nat.and_sub_one_eq_zero_iff_isPowerOfTwo (by omega)).mp (by rw [Nat.and_comm]; exact hand)
    have hk8 : 8 ≤ k := (Nat.pow_le_pow_iff_right (by omega : 1 < 2)).mp hlow
    have hk14 : k ≤ 14 := (Nat.pow_le_pow_iff_right (by omega : 1 < 2)).mp hhigh
    obtain rfl := Option.some_inj.mp hinit
    have hall : ∀ k ≤ 14, 8 ≤ k → Nat.log2 (if 2 ^ k / 256 = 0 then 2 ^ k / 256 + 1 else 2 ^ k / 256) =
        k - 8 ∧ (256 <<< (k - 8)) % 2 ^ 16 = 2 ^ k := by decide +kernel
    obtain ⟨hlog, hpage⟩ := hall k hk14 hk8
    rw [hlog]
    exact ⟨hpage, by dsimp only; omega, [], Layout.nil, rfl, rfl⟩

/-! ## A deque -/

/-- The calls on a queue. The parameter `page` of an insertion is the address of the page that is
allocated, if one is needed. -/
inductive Op
  | insertfirst (nodesize : ℕ) (page : Option ℕ)
  | insertlast (nodesize : ℕ) (page : Option ℕ)
  | removefirst (nodesize : ℕ)
  | removelast (nodesize : ℕ)
  | removeall
  | first (nodesize : ℕ)
  | last (nodesize : ℕ)
  | sizebytes
  deriving DecidableEq

/-- A call. -/
def call (queue : Queue) : Op → Result × Queue
  | .insertfirst nodesize page => insertfirstQueue queue nodesize page
  | .insertlast nodesize page => insertlastQueue queue nodesize page
  | .removefirst nodesize => removefirstQueue queue nodesize
  | .removelast nodesize => removelastQueue queue nodesize
  | .removeall => removeallQueue queue
  | .first nodesize => (.node (firstQueue queue nodesize), queue)
  | .last nodesize => (.node (lastQueue queue nodesize), queue)
  | .sizebytes => (.size (sizebytesQueue queue), queue)

/-- The nodes of a deque after a call with the given result. -/
def nodesAfter (nodes : List Block) : Op → Result → List Block
  | .insertfirst nodesize _, .newNode nodeaddr => ⟨nodeaddr, nodesize⟩ :: nodes
  | .insertlast nodesize _, .newNode nodeaddr => nodes ++ [⟨nodeaddr, nodesize⟩]
  | .removefirst _, .done => nodes.tail
  | .removelast _, .done => nodes.dropLast
  | .removeall, .done => []
  | _, _ => nodes

/-- A call on a queue whose nodes are recorded: where they are, and how many bytes they have. -/
def step (s : Queue × List Block) (op : Op) : Result × (Queue × List Block) :=
  ((call s.1 op).1, (call s.1 op).2, nodesAfter s.2 op (call s.1 op).1)

/-- What the caller has to keep: new nodes have between 1 and `maxelemsize_queue` bytes, and a removal
passes the size of the node at that end. The allocator returns pages that are not in use. -/
def Allowed (s : Queue × List Block) : Op → Prop
  | .insertfirst nodesize page | .insertlast nodesize page =>
    0 < nodesize ∧ nodesize ≤ maxelemsizeQueue (pagesizeQueue s.1) ∧
      ∀ addr ∈ page, Fresh s.1 addr
  | .removefirst nodesize => ∀ n ∈ s.2.head?, nodesize = n.size
  | .removelast nodesize => ∀ n ∈ s.2.getLast?, nodesize = n.size
  | _ => True

/-- What a deque with the given nodes returns. An insertion fails only without memory, and `first` and
`last` are asked with the size of the node. -/
def Answer (nodes : List Block) : Op → Result → Prop
  | .insertfirst _ page, out | .insertlast _ page, out =>
    page = none ∧ out = .error .ENOMEM ∨ ∃ nodeaddr, out = .newNode nodeaddr
  | .removefirst _, out | .removelast _, out =>
    nodes = [] ∧ out = .error .ENODATA ∨ nodes ≠ [] ∧ out = .done
  | .removeall, out => out = .done
  | .first nodesize, out =>
    (nodes = [] → out = .node none) ∧
      ∀ n ∈ nodes.head?, nodesize = n.size → out = .node (some n.start)
  | .last nodesize, out =>
    (nodes = [] → out = .node none) ∧
      ∀ n ∈ nodes.getLast?, nodesize = n.size → out = .node (some n.start)
  | .sizebytes, out => out = .size (nodes.map Block.size).sum

section Runs

variable {s : Queue × List Block} {op : Op}

/-- **A call** does to the nodes what it does to a deque, and returns what a deque returns. -/
theorem step_spec (h : Rep s.1 s.2) (hop : Allowed s op) :
    Rep (step s op).2.1 (step s op).2.2 ∧ Answer s.2 op (step s op).1 := by
  obtain ⟨queue, nodes⟩ := s
  cases op with
  | insertfirst nodesize page =>
    rcases insertfirstQueue_spec h hop.1 hop.2.1 hop.2.2 with ⟨hpage, hout⟩ | ⟨nodeaddr, hout, hrep⟩
    · have hcall : call queue (.insertfirst nodesize page) = (.error .ENOMEM, queue) := hout
      unfold step
      rw [hcall]
      exact ⟨h, Or.inl ⟨hpage, rfl⟩⟩
    · have hcall : (call queue (.insertfirst nodesize page)).1 = .newNode nodeaddr := hout
      unfold step
      rw [hcall]
      exact ⟨hrep, Or.inr ⟨nodeaddr, rfl⟩⟩
  | insertlast nodesize page =>
    rcases insertlastQueue_spec h hop.1 hop.2.1 hop.2.2 with ⟨hpage, hout⟩ | ⟨nodeaddr, hout, hrep⟩
    · have hcall : call queue (.insertlast nodesize page) = (.error .ENOMEM, queue) := hout
      unfold step
      rw [hcall]
      exact ⟨h, Or.inl ⟨hpage, rfl⟩⟩
    · have hcall : (call queue (.insertlast nodesize page)).1 = .newNode nodeaddr := hout
      unfold step
      rw [hcall]
      exact ⟨hrep, Or.inr ⟨nodeaddr, rfl⟩⟩
  | removefirst nodesize =>
    cases nodes with
    | nil =>
      have hempty : queue.pages = [] := (isemptyQueue_iff h).mpr rfl
      have hcall : call queue (.removefirst nodesize) = (.error .ENODATA, queue) := by
        rw [call, removefirstQueue, hempty]
      unfold step
      rw [hcall]
      exact ⟨h, Or.inl ⟨rfl, rfl⟩⟩
    | cons n nodes =>
      obtain rfl : nodesize = n.size := hop n rfl
      obtain ⟨hout, hrep⟩ := removefirstQueue_spec h
      have hcall : (call queue (.removefirst n.size)).1 = .done := hout
      unfold step
      rw [hcall]
      exact ⟨hrep, Or.inr ⟨by simp, rfl⟩⟩
  | removelast nodesize =>
    rcases List.eq_nil_or_concat nodes with rfl | ⟨nodes, n, rfl⟩
    · have hempty : queue.pages = [] := (isemptyQueue_iff h).mpr rfl
      have hcall : call queue (.removelast nodesize) = (.error .ENODATA, queue) := by
        rw [call, removelastQueue, hempty, List.getLast?_nil]
      unfold step
      rw [hcall]
      exact ⟨h, Or.inl ⟨rfl, rfl⟩⟩
    · rw [List.concat_eq_append] at h hop ⊢
      obtain rfl : nodesize = n.size := hop n List.getLast?_concat
      obtain ⟨hout, hrep⟩ := removelastQueue_spec h
      have hcall : (call queue (.removelast n.size)).1 = .done := hout
      unfold step
      rw [hcall]
      refine ⟨?_, Or.inr ⟨by simp, rfl⟩⟩
      rw [nodesAfter, List.dropLast_concat]
      exact hrep
  | removeall => exact ⟨⟨h.1, [], Layout.nil, rfl, rfl⟩, rfl⟩
  | first nodesize =>
    refine ⟨h, fun hnil => ?_, fun n hn hsize => ?_⟩
    · have hnil' : nodes = [] := hnil
      subst hnil'
      exact congrArg Result.node (firstQueue_nil h)
    · obtain ⟨rest, hrest⟩ := List.head?_eq_some_iff.mp hn
      have hrest' : nodes = n :: rest := hrest
      subst hrest' hsize
      exact congrArg Result.node (firstQueue_cons h)
  | last nodesize =>
    refine ⟨h, fun hnil => ?_, fun n hn hsize => ?_⟩
    · have hnil' : nodes = [] := hnil
      subst hnil'
      exact congrArg Result.node (lastQueue_nil h)
    · obtain ⟨rest, hrest⟩ := List.getLast?_eq_some_iff.mp hn
      have hrest' : nodes = rest ++ [n] := hrest
      subst hrest' hsize
      exact congrArg Result.node (lastQueue_concat h)
  | sizebytes => exact ⟨h, congrArg Result.size (sizebytesQueue_eq h)⟩

theorem pagesize_insertfirstNewpage (queue : Queue) (nodesize : ℕ) (page : Option ℕ) :
    (insertfirstNewpage queue nodesize page).2.pagesize = queue.pagesize := by
  unfold insertfirstNewpage
  split
  · rfl
  · dsimp only
    split
    · rfl
    · rfl

theorem pagesize_insertlastNewpage (queue : Queue) (nodesize : ℕ) (page : Option ℕ) :
    (insertlastNewpage queue nodesize page).2.pagesize = queue.pagesize := by
  unfold insertlastNewpage
  split
  · rfl
  · split
    · rfl
    · rfl

theorem pagesize_call (queue : Queue) (op : Op) : (call queue op).2.pagesize = queue.pagesize := by
  cases op with
  | insertfirst nodesize page =>
    rw [call]
    unfold insertfirstQueue
    split
    · exact pagesize_insertfirstNewpage queue nodesize page
    · split
      · exact pagesize_insertfirstNewpage queue nodesize page
      · rfl
  | insertlast nodesize page =>
    rw [call]
    unfold insertlastQueue
    split
    · exact pagesize_insertlastNewpage queue nodesize page
    · split
      · exact pagesize_insertlastNewpage queue nodesize page
      · rfl
  | removefirst nodesize =>
    rw [call]
    unfold removefirstQueue
    split
    · rfl
    · split
      · rfl
      · split
        · rfl
        · rfl
  | removelast nodesize =>
    rw [call]
    unfold removelastQueue
    split
    · rfl
    · split
      · rfl
      · split
        · rfl
        · rfl
  | removeall => rfl
  | first nodesize => rfl
  | last nodesize => rfl
  | sizebytes => rfl

/-- **Runs** keep the representation and the size of the pages. -/
theorem run_spec (h : Rep s.1 s.2) {ops : List Op} (hok : Along step Allowed s ops) :
    Rep (run step s ops).2.1 (run step s ops).2.2 ∧
      (run step s ops).2.1.pagesize = s.1.pagesize := by
  induction ops generalizing s with
  | nil => exact ⟨h, rfl⟩
  | cons op ops ih =>
    obtain ⟨hrep, hpagesize⟩ := ih (step_spec h hok.1).1 hok.2
    exact ⟨hrep, hpagesize.trans (pagesize_call s.1 op)⟩

/-- **`queue.c` is a deque of blocks.** After every sequence of calls on a new queue, whose nodes are
recorded with the addresses that the insertions have returned: no two nodes overlap, every node is on a
page behind its header, every page has a node, the list of pages is empty exactly if there are no
nodes, and every call returns what it returns for a deque with these nodes. -/
theorem queue_exact {pagesize : ℕ} {queue : Queue} (hinit : initQueue pagesize = some queue)
    {ops : List Op} (hok : Along step Allowed (queue, []) ops) :
    (run step (queue, []) ops).2.2.Pairwise Block.Apart ∧
      (∀ n ∈ (run step (queue, []) ops).2.2, ∃ p ∈ (run step (queue, []) ops).2.1.pages,
        p.addr + sizeofQueuePage ≤ n.start ∧ n.start + n.size ≤ p.addr + pagesize) ∧
      (∀ p ∈ (run step (queue, []) ops).2.1.pages, ∃ n ∈ (run step (queue, []) ops).2.2,
        p.addr + sizeofQueuePage ≤ n.start ∧ n.start + n.size ≤ p.addr + pagesize) ∧
      (isemptyQueue (run step (queue, []) ops).2.1 ↔ (run step (queue, []) ops).2.2 = []) ∧
      ∀ op, Allowed (run step (queue, []) ops).2 op → Answer (run step (queue, []) ops).2.2 op
        (step (run step (queue, []) ops).2 op).1 := by
  obtain ⟨hpagesize, hempty⟩ := initQueue_spec hinit
  obtain ⟨hrep, hsame⟩ := @run_spec (queue, []) hempty ops hok
  have hps : pagesizeQueue (run step (queue, []) ops).2.1 = pagesize := by
    rw [← hpagesize]
    unfold pagesizeQueue
    rw [hsame]
  obtain ⟨hapart, hwithin, hnode⟩ := hrep.apart
  rw [hps] at hwithin hnode
  exact ⟨hapart, hwithin, hnode, isemptyQueue_iff hrep, fun op hop => (step_spec hrep hop).2⟩

instance (queue : Queue) (addr : ℕ) : Decidable (Fresh queue addr) :=
  inferInstanceAs (Decidable (_ ∧ _))

instance instDecidableAllowed (s : Queue × List Block) : (op : Op) → Decidable (Allowed s op)
  | .insertfirst _ _ => inferInstanceAs (Decidable (_ ∧ _ ∧ _))
  | .insertlast _ _ => inferInstanceAs (Decidable (_ ∧ _ ∧ _))
  | .removefirst nodesize => inferInstanceAs (Decidable (∀ n ∈ s.2.head?, nodesize = n.size))
  | .removelast nodesize => inferInstanceAs (Decidable (∀ n ∈ s.2.getLast?, nodesize = n.size))
  | .removeall => isTrue True.intro
  | .first _ => isTrue True.intro
  | .last _ => isTrue True.intro
  | .sizebytes => isTrue True.intro

/-- Two pages of 256 bytes: the first one is filled from its end on, the second one from its start on,
until the first one is released. -/
def twoPages : List Op :=
  [.insertfirst 100 (some 512), .insertfirst 124 (some 1024), .insertlast 1 (some 1024),
    .removefirst 124, .insertlast 224 none, .insertlast 223 (some 256), .removefirst 100, .first 1]

/-- The nodes that are left, one of which is on the second page. -/
theorem queue_exact_twoPages : (run step (⟨[], 0⟩, []) twoPages).2.2.Pairwise Block.Apart := by
  exact (queue_exact (by decide +kernel : initQueue 256 = some ⟨[], 0⟩) (by decide +kernel)).1

end Runs

end Queue
end CKern
