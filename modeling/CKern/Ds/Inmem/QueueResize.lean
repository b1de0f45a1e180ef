import CKern.Ds.Inmem.Queue
import Mathlib.Order.Interval.Set.Disjoint
import Mathlib.Data.Set.Lattice
import Mathlib.Order.CompletePartialOrder

/-!
# `ds/inmem/queue.c`: nodes that are too big, and `resizelast_queue`

* `resizelastQueue`: the last bytes of the queue become a node of another size.
* `SoundPage`, `Sound`: the offsets of the pages, for nodes of any size.
* `used`: the addresses of the bytes that are in use.
* `Placed`: a node has got bytes on a page that were not in use.
* `Intact`: a call has made the node, or has left the queue as it was.
* `intact_iff`: it is intact unless an empty page is needed on which the node does not fit.
-/

namespace CKern
namespace Queue

open Refinement

/-- The bytes in memory. -/
abbrev Memory := ℕ → UInt8

/-- `memmove`. -/
def memmove (mem : Memory) (dest src n : ℕ) : Memory := fun a =>
  if dest ≤ a ∧ a < dest + n then mem (src + (a - dest)) else mem a

/-- `end_queuepage`. -/
def endQueuepage (qpage : QueuePage) : ℕ := qpage.addr + qpage.endOffset

/-- The end of `resizelast_queue`: the old content moves to `last`, a page without nodes which comes
behind the other `pages`. -/
def resizelastMove (queue : Queue) (mem : Memory) (pages : List QueuePage) (last : QueuePage)
    (oldcontent oldsize newsize : ℕ) : Result × Queue × Memory :=
  match pushlastQueuepage last (pagesizeQueue queue) newsize with
  | none => (.assertion, { queue with pages := pages ++ [last] }, mem)
  | some (nodeaddr, last) =>
    (.newNode nodeaddr, { queue with pages := pages ++ [last] },
      memmove mem nodeaddr oldcontent oldsize)

/-- `resizelast_queue`. The parameter `page` is the address of the page that is allocated, if one is
needed. -/
def resizelastQueue (queue : Queue) (mem : Memory) (oldsize newsize : ℕ) (page : Option ℕ) :
    Result × Queue × Memory :=
  if newsize > 512 then (.error .EINVAL, queue, mem)
  else
    match queue.pages.getLast? with
    | none => (.error .ENODATA, queue, mem)
    | some last =>
      let pages := queue.pages.dropLast
      match removelastQueuepage last oldsize with
      | none => (.error .EOVERFLOW, queue, mem)
      | some last =>
        match pushlastQueuepage last (pagesizeQueue queue) newsize with
        | some (nodeaddr, last) => (.newNode nodeaddr, { queue with pages := pages ++ [last] }, mem)
        | none =>
          let oldcontent := endQueuepage last
          if isemptyQueuepage last then
            let last := { last with endOffset := sizeofQueuePage, startOffset := sizeofQueuePage }
            resizelastMove queue mem pages last oldcontent oldsize newsize
          else
            match page with
            | none =>
              match pushlastQueuepage last (pagesizeQueue queue) oldsize with
              | none => (.error .ENOMEM, { queue with pages := pages ++ [last] }, mem)
              | some (_, last) => (.error .ENOMEM, { queue with pages := pages ++ [last] }, mem)
            | some addr =>
              resizelastMove queue mem (pages ++ [last]) ⟨addr, sizeofQueuePage, sizeofQueuePage⟩
                oldcontent oldsize newsize

/-- `sizelast_queue`. -/
def sizelastQueue (queue : Queue) : ℕ :=
  match queue.pages.getLast? with
  | none => 0
  | some last => last.endOffset - last.startOffset

/-! ## Pages -/

/-- The used bytes of a page lie behind the header and within the page. -/
structure SoundPage (pagesize : ℕ) (qpage : QueuePage) : Prop where
  start_ge : sizeofQueuePage ≤ qpage.startOffset
  start_le : qpage.startOffset ≤ qpage.endOffset
  end_le : qpage.endOffset ≤ pagesize
  aligned : pagesize ∣ qpage.addr

/-- The addresses of the used bytes of a page. -/
def usedPage (qpage : QueuePage) : Set ℕ :=
  Set.Ico (qpage.addr + qpage.startOffset) (qpage.addr + qpage.endOffset)

/-- The page `p` has become `p'` with a node of `nodesize` bytes. -/
structure Grown (pagesize : ℕ) (p p' : QueuePage) (nodeaddr nodesize : ℕ) : Prop where
  addr : p'.addr = p.addr
  sound : SoundPage pagesize p'
  lower : p.addr + sizeofQueuePage ≤ nodeaddr
  upper : nodeaddr + nodesize ≤ p.addr + pagesize
  apart : Disjoint (usedPage p) (Set.Ico nodeaddr (nodeaddr + nodesize))
  used : usedPage p' = usedPage p ∪ Set.Ico nodeaddr (nodeaddr + nodesize)

section Page

variable {pagesize nodesize : ℕ} {p p' : QueuePage}

theorem pushfirstQueuepage_eq (h : SoundPage pagesize p) (hpage : pagesize ≤ 16384) :
    pushfirstQueuepage p nodesize =
      if p.startOffset < sizeofQueuePage + nodesize then none
      else some (p.addr + (p.startOffset - nodesize),
        { p with startOffset := p.startOffset - nodesize }) := by
  have hstart := h.start_le
  have hend := h.end_le
  unfold pushfirstQueuepage
  dsimp only
  by_cases hroom : p.startOffset < sizeofQueuePage + nodesize
  · rw [if_pos hroom, if_pos (by omega)]
  · have hmod : ((p.startOffset : ℤ) - nodesize).toNat % 2 ^ 16 = p.startOffset - nodesize := by
      omega
    rw [if_neg hroom, if_neg (by omega), hmod]

theorem pushlastQueuepage_eq (hpage : pagesize ≤ 16384) :
    pushlastQueuepage p pagesize nodesize =
      if pagesize < p.endOffset + nodesize then none
      else some (p.addr + p.endOffset, { p with endOffset := p.endOffset + nodesize }) := by
  unfold pushlastQueuepage
  dsimp only
  by_cases hroom : pagesize < p.endOffset + nodesize
  · rw [if_pos hroom, if_pos hroom]
  · rw [if_neg hroom, if_neg hroom, Nat.mod_eq_of_lt (by omega)]

theorem removefirstQueuepage_eq (h : SoundPage pagesize p) (hpage : pagesize ≤ 16384) :
    removefirstQueuepage p nodesize =
      if p.endOffset < p.startOffset + nodesize then none
      else some { p with startOffset := p.startOffset + nodesize } := by
  have hend := h.end_le
  unfold removefirstQueuepage
  dsimp only
  by_cases hroom : p.endOffset < p.startOffset + nodesize
  · rw [if_pos hroom, if_pos hroom]
  · rw [if_neg hroom, if_neg hroom, Nat.mod_eq_of_lt (by omega)]

theorem removelastQueuepage_eq (h : SoundPage pagesize p) (hpage : pagesize ≤ 16384) :
    removelastQueuepage p nodesize =
      if p.endOffset < p.startOffset + nodesize then none
      else some { p with endOffset := p.endOffset - nodesize } := by
  have hend := h.end_le
  unfold removelastQueuepage
  dsimp only
  by_cases hroom : p.endOffset < p.startOffset + nodesize
  · rw [if_pos hroom, if_pos (by omega)]
  · have hmod : ((p.endOffset : ℤ) - nodesize).toNat % 2 ^ 16 = p.endOffset - nodesize := by omega
    rw [if_neg hroom, if_neg (by omega), hmod]

theorem SoundPage.growFirst (h : SoundPage pagesize p)
    (hroom : ¬ p.startOffset < sizeofQueuePage + nodesize) :
    Grown pagesize p { p with startOffset := p.startOffset - nodesize }
      (p.addr + (p.startOffset - nodesize)) nodesize := by
  obtain ⟨hge, hle, hend, haligned⟩ := h
  have hsum : p.addr + (p.startOffset - nodesize) + nodesize = p.addr + p.startOffset := by omega
  refine ⟨rfl, ⟨?_, ?_, hend, haligned⟩, ?_, ?_, ?_, ?_⟩
  · dsimp only
    omega
  · dsimp only
    omega
  · omega
  · omega
  · rw [hsum]
    exact Set.Ico_disjoint_Ico_same.symm
  · unfold usedPage
    dsimp only
    rw [hsum, Set.union_comm]
    exact (Set.Ico_union_Ico_eq_Ico (by omega) (by omega)).symm

theorem SoundPage.growLast (h : SoundPage pagesize p)
    (hroom : ¬ pagesize < p.endOffset + nodesize) :
    Grown pagesize p { p with endOffset := p.endOffset + nodesize } (p.addr + p.endOffset)
      nodesize := by
  obtain ⟨hge, hle, hend, haligned⟩ := h
  refine ⟨rfl, ⟨hge, ?_, ?_, haligned⟩, ?_, ?_, Set.Ico_disjoint_Ico_same, ?_⟩
  · dsimp only
    omega
  · dsimp only
    omega
  · omega
  · omega
  · unfold usedPage
    dsimp only
    rw [← Nat.add_assoc]
    exact (Set.Ico_union_Ico_eq_Ico (by omega) (by omega)).symm

end Page

theorem eq_of_dvd_of_lt {k a b : ℕ} (ha : k ∣ a) (hb : k ∣ b) (hab : a < b + k) (hba : b < a + k) :
    a = b := by
  obtain ⟨i, rfl⟩ := ha
  obtain ⟨j, rfl⟩ := hb
  rw [← Nat.mul_succ] at hab hba
  have hij := Nat.lt_of_mul_lt_mul_left hab
  have hji := Nat.lt_of_mul_lt_mul_left hba
  rw [show i = j by omega]

/-! ## Queues -/

/-- The pages of the queue are sound, and no two of them overlap. -/
structure Sound (queue : Queue) : Prop where
  pagesize_le : queue.pagesize ≤ 6
  pages : ∀ p ∈ queue.pages, SoundPage (pagesizeQueue queue) p
  nodup : (queue.pages.map QueuePage.addr).Nodup

/-- The addresses of the used bytes of a queue. -/
def used (queue : Queue) : Set ℕ := {a | ∃ p ∈ queue.pages, a ∈ usedPage p}

/-- Besides the bytes of `rest`, the queue has a node of `nodesize` bytes, which are on one page. -/
structure Placed (rest : Set ℕ) (queue : Queue) (nodeaddr nodesize : ℕ) : Prop where
  within : ∃ p ∈ queue.pages, p.addr + sizeofQueuePage ≤ nodeaddr ∧
    nodeaddr + nodesize ≤ p.addr + pagesizeQueue queue
  apart : Disjoint rest (Set.Ico nodeaddr (nodeaddr + nodesize))
  used : used queue = rest ∪ Set.Ico nodeaddr (nodeaddr + nodesize)

section Queues

variable {pages pages' : List QueuePage} {pagesize nodeaddr nodesize : ℕ} {p p' : QueuePage}

theorem used_cons : used ⟨p :: pages, pagesize⟩ = usedPage p ∪ used ⟨pages, pagesize⟩ := by
  ext a
  simp [used]

theorem used_perm (h : pages.Perm pages') : used ⟨pages, pagesize⟩ = used ⟨pages', pagesize⟩ := by
  ext a
  simp [used, h.mem_iff]

theorem sound_cons_iff : Sound ⟨p :: pages, pagesize⟩ ↔
    SoundPage (pagesizeQueue ⟨pages, pagesize⟩) p ∧ (∀ q ∈ pages, q.addr ≠ p.addr) ∧
      Sound ⟨pages, pagesize⟩ := by
  constructor
  · rintro ⟨hle, hpages, hnodup⟩
    dsimp only at hpages hnodup
    rw [List.forall_mem_cons] at hpages
    rw [List.map_cons, List.nodup_cons, List.mem_map] at hnodup
    exact ⟨hpages.1, fun q hq heq => hnodup.1 ⟨q, hq, heq⟩, hle, hpages.2, hnodup.2⟩
  · rintro ⟨hp, hne, hle, hpages, hnodup⟩
    refine ⟨hle, List.forall_mem_cons.mpr ⟨hp, hpages⟩, ?_⟩
    rw [List.map_cons, List.nodup_cons, List.mem_map]
    refine ⟨?_, hnodup⟩
    rintro ⟨q, hq, heq⟩
    exact hne q hq heq

theorem Sound.perm (h : Sound ⟨pages, pagesize⟩) (hperm : pages.Perm pages') :
    Sound ⟨pages', pagesize⟩ :=
  ⟨h.pagesize_le, fun p hp => h.pages p (hperm.mem_iff.mpr hp), (hperm.map _).nodup_iff.mp h.nodup⟩

theorem Sound.replace (h : Sound ⟨p :: pages, pagesize⟩) (haddr : p'.addr = p.addr)
    (hp' : SoundPage (pagesizeQueue ⟨pages, pagesize⟩) p') : Sound ⟨p' :: pages, pagesize⟩ := by
  obtain ⟨-, hne, hrest⟩ := sound_cons_iff.mp h
  exact sound_cons_iff.mpr ⟨hp', haddr ▸ hne, hrest⟩

theorem Sound.disjoint (h : Sound ⟨p :: pages, pagesize⟩) (hlower : p.addr ≤ nodeaddr)
    (hupper : nodeaddr + nodesize ≤ p.addr + pagesizeQueue ⟨pages, pagesize⟩) :
    Disjoint (used ⟨pages, pagesize⟩) (Set.Ico nodeaddr (nodeaddr + nodesize)) := by
  obtain ⟨hp, hne, hrest⟩ := sound_cons_iff.mp h
  rw [Set.disjoint_left]
  rintro a ⟨q, hq, ha⟩ ha'
  have hend := (hrest.pages q hq).end_le
  unfold usedPage at ha
  rw [Set.mem_Ico] at ha ha'
  exact hne q hq (eq_of_dvd_of_lt (hrest.pages q hq).aligned hp.aligned (by omega) (by omega))

/-- **A page grows.** Then the queue has a node more. -/
theorem Sound.grow (h : Sound ⟨p :: pages, pagesize⟩)
    (hgrown : Grown (pagesizeQueue ⟨pages, pagesize⟩) p p' nodeaddr nodesize) :
    Sound ⟨p' :: pages, pagesize⟩ ∧
      Placed (used ⟨p :: pages, pagesize⟩) ⟨p' :: pages, pagesize⟩ nodeaddr nodesize := by
  obtain ⟨haddr, hsound, hlower, hupper, hapart, hused⟩ := hgrown
  have hother := h.disjoint (Nat.le_of_add_right_le hlower) hupper
  refine ⟨h.replace haddr hsound, ⟨p', List.mem_cons_self, by rwa [haddr], by rwa [haddr]⟩, ?_, ?_⟩
  · rw [used_cons]
    exact hapart.union_left hother
  · rw [used_cons, used_cons, hused, Set.union_right_comm]

theorem Placed.perm {rest : Set ℕ} (h : Placed rest ⟨pages, pagesize⟩ nodeaddr nodesize)
    (hperm : pages.Perm pages') : Placed rest ⟨pages', pagesize⟩ nodeaddr nodesize := by
  obtain ⟨⟨p, hp, hwithin⟩, hapart, hused⟩ := h
  exact ⟨⟨p, hperm.mem_iff.mp hp, hwithin⟩, hapart, by rwa [← used_perm hperm]⟩

theorem used_of_empty (h : isemptyQueuepage p) :
    used ⟨p :: pages, pagesize⟩ = used ⟨pages, pagesize⟩ := by
  unfold isemptyQueuepage at h
  rw [used_cons, usedPage, h, Set.Ico_self, Set.empty_union]

end Queues

/-! ## Insertion -/

/-- A call that places a node of `nodesize` bytes besides the bytes of `rest` is intact if it does
so, or if it returns an error and the queue is as it was. -/
def Intact (rest : Set ℕ) (queue : Queue) (nodesize : ℕ) (result : Result × Queue) : Prop :=
  (∃ e, result = (.error e, queue)) ∨
    ∃ nodeaddr, result.1 = .newNode nodeaddr ∧ Placed rest result.2 nodeaddr nodesize

section Insert

variable {queue : Queue} {nodesize : ℕ} {page : Option ℕ}

theorem not_intact_assertion {rest : Set ℕ} {queue' : Queue} :
    ¬ Intact rest queue nodesize (.assertion, queue') := by
  rintro (⟨e, h⟩ | ⟨nodeaddr, h, -⟩)
  · cases (Prod.mk.inj h).1
  · cases h

theorem maxelemsizeQueue_eq (h : queue.pagesize ≤ 6) :
    maxelemsizeQueue (pagesizeQueue queue) + sizeofQueuePage = pagesizeQueue queue := by
  have hps := pagesizeQueue_le h
  unfold maxelemsizeQueue sizeofQueuePage
  omega

theorem insertfirstNewpage_cases (h : Sound queue) (hfresh : ∀ addr ∈ page, Fresh queue addr) :
    Sound (insertfirstNewpage queue nodesize page).2 ∧
      (Intact (used queue) queue nodesize (insertfirstNewpage queue nodesize page) ↔
        nodesize ≤ maxelemsizeQueue (pagesizeQueue queue) ∨ page = none) := by
  have hmax := maxelemsizeQueue_eq h.pagesize_le
  have hps := pagesizeQueue_le h.pagesize_le
  unfold insertfirstNewpage
  cases page with
  | none => exact ⟨h, fun _ => Or.inr rfl, fun _ => Or.inl ⟨_, rfl⟩⟩
  | some addr =>
    obtain ⟨haligned, hne⟩ := hfresh addr rfl
    have hempty : SoundPage (pagesizeQueue queue)
        ⟨addr, pagesizeQueue queue, pagesizeQueue queue⟩ :=
      ⟨by dsimp only; omega, Nat.le_refl _, Nat.le_refl _, haligned⟩
    have hsound : Sound ⟨⟨addr, pagesizeQueue queue, pagesizeQueue queue⟩ :: queue.pages,
        queue.pagesize⟩ := sound_cons_iff.mpr ⟨hempty, hne, h⟩
    dsimp only
    rw [pushfirstQueuepage_eq hempty hps.2]
    dsimp only
    by_cases hroom : pagesizeQueue queue < sizeofQueuePage + nodesize
    · rw [if_pos hroom]
      refine ⟨h, fun hintact => absurd hintact not_intact_assertion, ?_⟩
      rintro (hsize | hsize)
      · omega
      · cases hsize
    · rw [if_neg hroom]
      obtain ⟨hsound', hplaced⟩ := hsound.grow (hempty.growFirst hroom)
      have hnone : isemptyQueuepage ⟨addr, pagesizeQueue queue, pagesizeQueue queue⟩ := rfl
      rw [used_of_empty hnone] at hplaced
      exact ⟨hsound', fun _ => Or.inl (by omega), fun _ => Or.inr ⟨_, rfl, hplaced⟩⟩

/-- **Insertion at the front.** -/
theorem insertfirstQueue_cases (h : Sound queue) (hfresh : ∀ addr ∈ page, Fresh queue addr) :
    Sound (insertfirstQueue queue nodesize page).2 ∧
      (Intact (used queue) queue nodesize (insertfirstQueue queue nodesize page) ↔
        nodesize ≤ maxelemsizeQueue (pagesizeQueue queue) ∨ page = none) := by
  have hnew := @insertfirstNewpage_cases queue nodesize page h hfresh
  have hmax := maxelemsizeQueue_eq h.pagesize_le
  have hps := pagesizeQueue_le h.pagesize_le
  unfold insertfirstQueue
  obtain ⟨pages, pagesize⟩ := queue
  cases pages with
  | nil => exact hnew
  | cons first pages =>
    have hfirst := h.pages first List.mem_cons_self
    have hstart := hfirst.start_le
    have hend := hfirst.end_le
    dsimp only
    rw [pushfirstQueuepage_eq hfirst hps.2]
    by_cases hroom : first.startOffset < sizeofQueuePage + nodesize
    · rw [if_pos hroom]
      exact hnew
    · rw [if_neg hroom]
      obtain ⟨hsound, hplaced⟩ := h.grow (hfirst.growFirst hroom)
      exact ⟨hsound, fun _ => Or.inl (by omega), fun _ => Or.inr ⟨_, rfl, hplaced⟩⟩

theorem Sound.growLast {pages : List QueuePage} {last : QueuePage} {pagesize : ℕ}
    (h : Sound ⟨last :: pages, pagesize⟩)
    (hroom : ¬ pagesizeQueue ⟨pages, pagesize⟩ < last.endOffset + nodesize) :
    Sound ⟨pages ++ [{ last with endOffset := last.endOffset + nodesize }], pagesize⟩ ∧
      Placed (used ⟨last :: pages, pagesize⟩)
        ⟨pages ++ [{ last with endOffset := last.endOffset + nodesize }], pagesize⟩
        (last.addr + last.endOffset) nodesize := by
  have hlast := h.pages last List.mem_cons_self
  obtain ⟨hsound, hplaced⟩ := h.grow (hlast.growLast hroom)
  have hperm := List.perm_append_singleton
    { last with endOffset := last.endOffset + nodesize } pages
  exact ⟨hsound.perm hperm.symm, hplaced.perm hperm.symm⟩

theorem insertlastNewpage_cases (h : Sound queue) (hfresh : ∀ addr ∈ page, Fresh queue addr) :
    Sound (insertlastNewpage queue nodesize page).2 ∧
      (Intact (used queue) queue nodesize (insertlastNewpage queue nodesize page) ↔
        nodesize ≤ maxelemsizeQueue (pagesizeQueue queue) ∨ page = none) := by
  have hmax := maxelemsizeQueue_eq h.pagesize_le
  have hps := pagesizeQueue_le h.pagesize_le
  unfold insertlastNewpage
  cases page with
  | none => exact ⟨h, fun _ => Or.inr rfl, fun _ => Or.inl ⟨_, rfl⟩⟩
  | some addr =>
    obtain ⟨haligned, hne⟩ := hfresh addr rfl
    have hempty : SoundPage (pagesizeQueue queue) ⟨addr, sizeofQueuePage, sizeofQueuePage⟩ :=
      ⟨Nat.le_refl _, Nat.le_refl _, by dsimp only; omega, haligned⟩
    have hsound : Sound ⟨⟨addr, sizeofQueuePage, sizeofQueuePage⟩ :: queue.pages,
        queue.pagesize⟩ := sound_cons_iff.mpr ⟨hempty, hne, h⟩
    dsimp only
    rw [pushlastQueuepage_eq hps.2]
    dsimp only
    by_cases hroom : pagesizeQueue queue < sizeofQueuePage + nodesize
    · rw [if_pos hroom]
      refine ⟨h, fun hintact => absurd hintact not_intact_assertion, ?_⟩
      rintro (hsize | hsize)
      · omega
      · cases hsize
    · rw [if_neg hroom]
      obtain ⟨hsound', hplaced⟩ := hsound.growLast hroom
      have hnone : isemptyQueuepage ⟨addr, sizeofQueuePage, sizeofQueuePage⟩ := rfl
      rw [used_of_empty hnone] at hplaced
      exact ⟨hsound', fun _ => Or.inl (by omega), fun _ => Or.inr ⟨_, rfl, hplaced⟩⟩

/-- **Insertion at the back.** -/
theorem insertlastQueue_cases (h : Sound queue) (hfresh : ∀ addr ∈ page, Fresh queue addr) :
    Sound (insertlastQueue queue nodesize page).2 ∧
      (Intact (used queue) queue nodesize (insertlastQueue queue nodesize page) ↔
        nodesize ≤ maxelemsizeQueue (pagesizeQueue queue) ∨ page = none) := by
  have hnew := @insertlastNewpage_cases queue nodesize page h hfresh
  unfold insertlastQueue
  obtain ⟨pages, pagesize⟩ := queue
  rcases List.eq_nil_or_concat pages with rfl | ⟨pages, last, rfl⟩
  · exact hnew
  · rw [List.concat_eq_append] at h hnew ⊢
    have hmax := maxelemsizeQueue_eq h.pagesize_le
    have hps := pagesizeQueue_le h.pagesize_le
    have hperm := List.perm_append_singleton last pages
    have h' := h.perm hperm
    have hlast := h'.pages last List.mem_cons_self
    have hge := hlast.start_ge
    have hle := hlast.start_le
    dsimp only
    rw [List.getLast?_concat]
    dsimp only
    rw [pushlastQueuepage_eq hps.2, List.dropLast_concat]
    by_cases hroom : pagesizeQueue ⟨pages ++ [last], pagesize⟩ < last.endOffset + nodesize
    · rw [if_pos hroom]
      exact hnew
    · rw [if_neg hroom]
      obtain ⟨hsound, hplaced⟩ := h'.growLast hroom
      rw [← used_perm hperm] at hplaced
      exact ⟨hsound, fun _ => Or.inl (by omega), fun _ => Or.inr ⟨_, rfl, hplaced⟩⟩

end Insert

/-! ## Resizing -/

/-- A call of `resizelast_queue` is intact if the last `oldsize` bytes have become a node of
`newsize` bytes with the same content as far as both go, and all other bytes are as they were, or if
it returns an error and everything is as it was. -/
def IntactResize (queue : Queue) (mem : Memory) (oldsize newsize : ℕ)
    (result : Result × Queue × Memory) : Prop :=
  (∃ e, result = (.error e, queue, mem)) ∨
    ∃ oldaddr nodeaddr, lastQueue queue oldsize = some oldaddr ∧ result.1 = .newNode nodeaddr ∧
      Placed (used queue \ Set.Ico oldaddr (oldaddr + oldsize)) result.2.1 nodeaddr newsize ∧
      (∀ i < min oldsize newsize, result.2.2 (nodeaddr + i) = mem (oldaddr + i)) ∧
      ∀ a ∈ used queue \ Set.Ico oldaddr (oldaddr + oldsize), result.2.2 a = mem a

section Resize

variable {queue : Queue} {mem : Memory} {oldsize newsize : ℕ} {page : Option ℕ}
  {pages : List QueuePage} {last : QueuePage} {pagesize : ℕ}

theorem not_intactResize_assertion {queue' : Queue} {mem' : Memory} :
    ¬ IntactResize queue mem oldsize newsize (.assertion, queue', mem') := by
  rintro (⟨e, h⟩ | ⟨oldaddr, nodeaddr, -, h, -⟩)
  · cases (Prod.mk.inj h).1
  · cases h

theorem used_trim (h : Sound ⟨last :: pages, pagesize⟩)
    (hold : ¬ last.endOffset < last.startOffset + oldsize) :
    used ⟨{ last with endOffset := last.endOffset - oldsize } :: pages, pagesize⟩ =
      used ⟨last :: pages, pagesize⟩ \ Set.Ico (last.addr + (last.endOffset - oldsize))
        (last.addr + (last.endOffset - oldsize) + oldsize) := by
  have hlast := h.pages last List.mem_cons_self
  have hge := hlast.start_ge
  have hend : last.endOffset ≤ pagesizeQueue ⟨pages, pagesize⟩ := hlast.end_le
  have hapart : Disjoint (used ⟨pages, pagesize⟩) (Set.Ico (last.addr + (last.endOffset - oldsize))
      (last.addr + (last.endOffset - oldsize) + oldsize)) :=
    h.disjoint (Nat.le_add_right _ _) (by omega)
  rw [used_cons, used_cons, Set.union_sdiff_distrib, hapart.sdiff_eq_left]
  congr 1
  ext a
  unfold usedPage
  rw [Set.mem_sdiff, Set.mem_Ico, Set.mem_Ico, Set.mem_Ico]
  dsimp only
  omega

variable (mem) in
theorem resizelastMove_cases {others : List QueuePage} {oldaddr : ℕ}
    (h : Sound ⟨last :: pages, pagesize⟩) (hnone : isemptyQueuepage last)
    (hlast : last.endOffset = sizeofQueuePage) (hsize : oldsize ≤ newsize)
    (hold : lastQueue ⟨others, pagesize⟩ oldsize = some oldaddr)
    (hused : used ⟨pages, pagesize⟩ =
      used ⟨others, pagesize⟩ \ Set.Ico oldaddr (oldaddr + oldsize)) :
    Sound (resizelastMove ⟨others, pagesize⟩ mem pages last oldaddr oldsize newsize).2.1 ∧
      (IntactResize ⟨others, pagesize⟩ mem oldsize newsize
          (resizelastMove ⟨others, pagesize⟩ mem pages last oldaddr oldsize newsize) ↔
        newsize ≤ maxelemsizeQueue (pagesizeQueue ⟨others, pagesize⟩)) := by
  have hmax := @maxelemsizeQueue_eq ⟨others, pagesize⟩ h.pagesize_le
  have hps := @pagesizeQueue_le ⟨others, pagesize⟩ h.pagesize_le
  unfold resizelastMove
  rw [pushlastQueuepage_eq hps.2]
  by_cases hroom : pagesizeQueue ⟨others, pagesize⟩ < last.endOffset + newsize
  · rw [if_pos hroom]
    exact ⟨h.perm (List.perm_append_singleton last pages).symm,
      fun hintact => absurd hintact not_intactResize_assertion, fun hfit => by omega⟩
  · rw [if_neg hroom]
    obtain ⟨hsound, hplaced⟩ := h.growLast hroom
    rw [used_of_empty hnone, hused] at hplaced
    refine ⟨hsound, fun _ => by omega, fun _ => Or.inr ⟨oldaddr, _, hold, rfl, hplaced,
      fun i hi => ?_, fun a ha => ?_⟩⟩
    · unfold memmove
      dsimp only
      rw [if_pos (by omega), Nat.add_sub_cancel_left]
    · have hnot := Set.disjoint_left.mp hplaced.apart ha
      rw [Set.mem_Ico] at hnot
      unfold memmove
      dsimp only
      rw [if_neg (by omega)]

theorem resizelastQueue_eq (h : Sound ⟨last :: pages, pagesize⟩) (hmax : ¬ newsize > 512)
    (hold : ¬ last.endOffset < last.startOffset + oldsize) :
    resizelastQueue ⟨pages ++ [last], pagesize⟩ mem oldsize newsize page =
      if pagesizeQueue ⟨pages ++ [last], pagesize⟩ < last.endOffset - oldsize + newsize then
        if last.endOffset - oldsize = last.startOffset then
          resizelastMove ⟨pages ++ [last], pagesize⟩ mem pages
            { last with endOffset := sizeofQueuePage, startOffset := sizeofQueuePage }
            (last.addr + (last.endOffset - oldsize)) oldsize newsize
        else
          match page with
          | none => (.error .ENOMEM, ⟨pages ++ [last], pagesize⟩, mem)
          | some addr =>
            resizelastMove ⟨pages ++ [last], pagesize⟩ mem
              (pages ++ [{ last with endOffset := last.endOffset - oldsize }])
              ⟨addr, sizeofQueuePage, sizeofQueuePage⟩ (last.addr + (last.endOffset - oldsize))
              oldsize newsize
      else (.newNode (last.addr + (last.endOffset - oldsize)),
        ⟨pages ++ [{ last with endOffset := last.endOffset - oldsize + newsize }], pagesize⟩,
        mem) := by
  have hlast : SoundPage (pagesizeQueue ⟨pages ++ [last], pagesize⟩) last :=
    h.pages last List.mem_cons_self
  have hps := @pagesizeQueue_le ⟨pages ++ [last], pagesize⟩ h.pagesize_le
  have hend := hlast.end_le
  unfold resizelastQueue
  rw [if_neg hmax]
  dsimp only
  rw [List.getLast?_concat]
  dsimp only
  rw [removelastQueuepage_eq hlast hps.2, if_neg hold]
  dsimp only
  rw [pushlastQueuepage_eq hps.2, List.dropLast_concat]
  dsimp only
  by_cases hroom : pagesizeQueue ⟨pages ++ [last], pagesize⟩ < last.endOffset - oldsize + newsize
  · rw [if_pos hroom, if_pos hroom]
    dsimp only
    by_cases hempty : last.endOffset - oldsize = last.startOffset
    · rw [if_pos hempty, if_pos (by exact hempty)]
      rfl
    · rw [if_neg hempty, if_neg (by exact hempty)]
      cases page with
      | none =>
        dsimp only
        rw [pushlastQueuepage_eq hps.2]
        dsimp only
        rw [if_neg (by omega), Nat.sub_add_cancel (by omega)]
      | some addr => rfl
  · rw [if_neg hroom, if_neg hroom]

/-- **Resizing the last node.** -/
theorem resizelastQueue_cases (h : Sound queue) (hfresh : ∀ addr ∈ page, Fresh queue addr) :
    Sound (resizelastQueue queue mem oldsize newsize page).2.1 ∧
      (IntactResize queue mem oldsize newsize (resizelastQueue queue mem oldsize newsize page) ↔
        newsize ≤ maxelemsizeQueue (pagesizeQueue queue) ∨ 512 < newsize ∨
          lastQueue queue oldsize = none ∨ oldsize < sizelastQueue queue ∧ page = none) := by
  by_cases hmax : newsize > 512
  · unfold resizelastQueue
    rw [if_pos hmax]
    exact ⟨h, fun _ => Or.inr (Or.inl hmax), fun _ => Or.inl ⟨_, rfl⟩⟩
  obtain ⟨pages, pagesize⟩ := queue
  rcases List.eq_nil_or_concat pages with rfl | ⟨pages, last, rfl⟩
  · unfold resizelastQueue
    rw [if_neg hmax]
    exact ⟨h, fun _ => Or.inr (Or.inr (Or.inl rfl)), fun _ => Or.inl ⟨_, rfl⟩⟩
  rw [List.concat_eq_append] at h hfresh ⊢
  have hperm := List.perm_append_singleton last pages
  have h' := h.perm hperm
  have hps := maxelemsizeQueue_eq h.pagesize_le
  have hlast : SoundPage (pagesizeQueue ⟨pages ++ [last], pagesize⟩) last :=
    h'.pages last List.mem_cons_self
  obtain ⟨hge, hle, hend, haligned⟩ := hlast
  have hsize : sizelastQueue ⟨pages ++ [last], pagesize⟩ = last.endOffset - last.startOffset := by
    unfold sizelastQueue
    rw [List.getLast?_concat]
  by_cases hold : last.endOffset < last.startOffset + oldsize
  · have hnone : lastQueue ⟨pages ++ [last], pagesize⟩ oldsize = none := by
      unfold lastQueue
      rw [List.getLast?_concat]
      exact if_neg (by omega)
    have hresult : resizelastQueue ⟨pages ++ [last], pagesize⟩ mem oldsize newsize page =
        (.error .EOVERFLOW, ⟨pages ++ [last], pagesize⟩, mem) := by
      unfold resizelastQueue
      rw [if_neg hmax]
      dsimp only
      rw [List.getLast?_concat]
      dsimp only
      rw [removelastQueuepage_eq ⟨hge, hle, hend, haligned⟩ (pagesizeQueue_le h.pagesize_le).2,
        if_pos hold]
    rw [hresult]
    exact ⟨h, fun _ => Or.inr (Or.inr (Or.inl hnone)), fun _ => Or.inl ⟨_, rfl⟩⟩
  have hold' : lastQueue ⟨pages ++ [last], pagesize⟩ oldsize =
      some (last.addr + (last.endOffset - oldsize)) := by
    unfold lastQueue
    rw [List.getLast?_concat]
    dsimp only
    rw [if_pos (by omega), Nat.add_sub_assoc (by omega)]
  have htrim : Sound ⟨{ last with endOffset := last.endOffset - oldsize } :: pages, pagesize⟩ := by
    refine h'.replace rfl ⟨hge, ?_, ?_, haligned⟩
    · dsimp only
      omega
    · exact (Nat.sub_le _ _).trans hend
  have hused := used_trim h' hold
  rw [used_perm hperm.symm] at hused
  rw [resizelastQueue_eq h' hmax hold, hold', hsize]
  by_cases hroom :
    pagesizeQueue ⟨pages ++ [last], pagesize⟩ < last.endOffset - oldsize + newsize
  · rw [if_pos hroom]
    by_cases hempty : last.endOffset - oldsize = last.startOffset
    · rw [if_pos hempty]
      have hreset : Sound
          ⟨{ last with endOffset := sizeofQueuePage, startOffset := sizeofQueuePage } :: pages,
            pagesize⟩ := by
        refine h'.replace rfl ⟨Nat.le_refl _, Nat.le_refl _, ?_, haligned⟩
        exact (hge.trans hle).trans hend
      rw [used_of_empty (by exact hempty)] at hused
      obtain ⟨hsound, hiff⟩ := resizelastMove_cases mem hreset rfl rfl
        (by omega : oldsize ≤ newsize) hold' hused
      refine ⟨hsound, hiff.trans ⟨Or.inl, ?_⟩⟩
      rintro (hfit | hfit | hfit | ⟨hfit, -⟩)
      · exact hfit
      · omega
      · cases hfit
      · omega
    · rw [if_neg hempty]
      cases page with
      | none =>
        exact ⟨h, fun _ => Or.inr (Or.inr (Or.inr ⟨by omega, rfl⟩)), fun _ => Or.inl ⟨_, rfl⟩⟩
      | some addr =>
        obtain ⟨hnew, hne⟩ := hfresh addr rfl
        have hperm' := List.perm_append_singleton
          { last with endOffset := last.endOffset - oldsize } pages
        have hfresh' : Sound ⟨⟨addr, sizeofQueuePage, sizeofQueuePage⟩ ::
            (pages ++ [{ last with endOffset := last.endOffset - oldsize }]), pagesize⟩ := by
          refine sound_cons_iff.mpr ⟨⟨Nat.le_refl _, Nat.le_refl _, ?_, hnew⟩, fun p hp => ?_,
            htrim.perm hperm'.symm⟩
          · exact (hge.trans hle).trans hend
          · rcases List.mem_append.mp hp with hp | hp
            · exact hne p (List.mem_append_left _ hp)
            · obtain rfl := List.mem_singleton.mp hp
              exact hne last (List.mem_append_right _ (List.mem_singleton_self last))
        rw [← used_perm hperm'] at hused
        obtain ⟨hsound, hiff⟩ := resizelastMove_cases mem hfresh' rfl rfl
          (by omega : oldsize ≤ newsize) hold' hused
        refine ⟨hsound, hiff.trans ⟨Or.inl, ?_⟩⟩
        rintro (hfit | hfit | hfit | ⟨-, hfit⟩)
        · exact hfit
        · omega
        · cases hfit
        · cases hfit
  · rw [if_neg hroom]
    obtain ⟨hsound, hplaced⟩ := htrim.growLast hroom
    rw [hused] at hplaced
    exact ⟨hsound, fun _ => Or.inl (by omega), fun _ => Or.inr ⟨_, _, hold', rfl, hplaced,
      fun _ _ => rfl, fun _ _ => rfl⟩⟩

end Resize

/-! ## Removal -/

section Remove

variable {queue : Queue} {nodesize : ℕ}

theorem Sound.removefirst (h : Sound queue) : Sound (removefirstQueue queue nodesize).2 := by
  obtain ⟨pages, pagesize⟩ := queue
  unfold removefirstQueue
  cases pages with
  | nil => exact h
  | cons first pages =>
    have hfirst := h.pages first List.mem_cons_self
    obtain ⟨hge, hle, hend, haligned⟩ := hfirst
    dsimp only
    rw [removefirstQueuepage_eq ⟨hge, hle, hend, haligned⟩ (pagesizeQueue_le h.pagesize_le).2]
    by_cases hroom : first.endOffset < first.startOffset + nodesize
    · rw [if_pos hroom]
      exact h
    · rw [if_neg hroom]
      dsimp only
      split
      · exact (sound_cons_iff.mp h).2.2
      · refine h.replace rfl ⟨?_, ?_, hend, haligned⟩
        · exact hge.trans (Nat.le_add_right _ _)
        · exact Nat.le_of_not_lt hroom

theorem Sound.removelast (h : Sound queue) : Sound (removelastQueue queue nodesize).2 := by
  obtain ⟨pages, pagesize⟩ := queue
  unfold removelastQueue
  rcases List.eq_nil_or_concat pages with rfl | ⟨pages, last, rfl⟩
  · exact h
  · rw [List.concat_eq_append] at h ⊢
    have h' := h.perm (List.perm_append_singleton last pages)
    obtain ⟨hge, hle, hend, haligned⟩ := h'.pages last List.mem_cons_self
    dsimp only
    rw [List.getLast?_concat, List.dropLast_concat]
    dsimp only
    rw [removelastQueuepage_eq ⟨hge, hle, hend, haligned⟩ (pagesizeQueue_le h.pagesize_le).2]
    by_cases hroom : last.endOffset < last.startOffset + nodesize
    · rw [if_pos hroom]
      exact h
    · rw [if_neg hroom]
      dsimp only
      split
      · exact (sound_cons_iff.mp h').2.2
      · have htrim : Sound
            ⟨{ last with endOffset := last.endOffset - nodesize } :: pages, pagesize⟩ := by
          refine h'.replace rfl ⟨hge, ?_, ?_, haligned⟩
          · dsimp only
            omega
          · exact (Nat.sub_le _ _).trans hend
        exact htrim.perm (List.perm_append_singleton _ pages).symm

end Remove

/-! ## Runs -/

/-- The calls on a queue with nodes of any size, and the writes of the caller to the memory. -/
inductive Call
  | insertfirst (nodesize : ℕ) (page : Option ℕ)
  | insertlast (nodesize : ℕ) (page : Option ℕ)
  | resizelast (oldsize newsize : ℕ) (page : Option ℕ)
  | removefirst (nodesize : ℕ)
  | removelast (nodesize : ℕ)
  | removeall
  | write (mem : Memory)

/-- A call, on a queue and the memory. -/
def stepMemory (s : Queue × Memory) : Call → Result × (Queue × Memory)
  | .insertfirst nodesize page =>
    ((insertfirstQueue s.1 nodesize page).1, (insertfirstQueue s.1 nodesize page).2, s.2)
  | .insertlast nodesize page =>
    ((insertlastQueue s.1 nodesize page).1, (insertlastQueue s.1 nodesize page).2, s.2)
  | .resizelast oldsize newsize page => resizelastQueue s.1 s.2 oldsize newsize page
  | .removefirst nodesize =>
    ((removefirstQueue s.1 nodesize).1, (removefirstQueue s.1 nodesize).2, s.2)
  | .removelast nodesize =>
    ((removelastQueue s.1 nodesize).1, (removelastQueue s.1 nodesize).2, s.2)
  | .removeall => ((removeallQueue s.1).1, (removeallQueue s.1).2, s.2)
  | .write mem => (.done, s.1, mem)

/-- The allocator returns pages that are not in use. -/
def Allocates (s : Queue × Memory) : Call → Prop
  | .insertfirst _ page | .insertlast _ page | .resizelast _ _ page =>
    ∀ addr ∈ page, Fresh s.1 addr
  | _ => True

/-- **Every call** keeps the pages sound. -/
theorem Sound.stepMemory {s : Queue × Memory} {c : Call} (h : Sound s.1) (hc : Allocates s c) :
    Sound (Queue.stepMemory s c).2.1 := by
  cases c with
  | insertfirst nodesize page => exact (insertfirstQueue_cases h hc).1
  | insertlast nodesize page => exact (insertlastQueue_cases h hc).1
  | resizelast oldsize newsize page => exact (resizelastQueue_cases h hc).1
  | removefirst nodesize => exact h.removefirst
  | removelast nodesize => exact h.removelast
  | removeall => exact ⟨h.pagesize_le, by simp [Queue.stepMemory, removeallQueue],
      by simp [Queue.stepMemory, removeallQueue]⟩
  | write mem => exact h

theorem pagesize_resizelastMove (queue : Queue) (mem : Memory) (pages : List QueuePage)
    (last : QueuePage) (oldcontent oldsize newsize : ℕ) :
    (resizelastMove queue mem pages last oldcontent oldsize newsize).2.1.pagesize =
      queue.pagesize := by
  unfold resizelastMove
  split
  · rfl
  · rfl

theorem pagesize_resizelastQueue (queue : Queue) (mem : Memory) (oldsize newsize : ℕ)
    (page : Option ℕ) :
    (resizelastQueue queue mem oldsize newsize page).2.1.pagesize = queue.pagesize := by
  unfold resizelastQueue
  split
  · rfl
  · split
    · rfl
    · dsimp only
      split
      · rfl
      · split
        · rfl
        · split
          · exact pagesize_resizelastMove queue mem _ _ _ oldsize newsize
          · split
            · split
              · rfl
              · rfl
            · exact pagesize_resizelastMove queue mem _ _ _ oldsize newsize

theorem pagesize_stepMemory (s : Queue × Memory) (c : Call) :
    (stepMemory s c).2.1.pagesize = s.1.pagesize := by
  cases c with
  | insertfirst nodesize page => exact pagesize_call s.1 (.insertfirst nodesize page)
  | insertlast nodesize page => exact pagesize_call s.1 (.insertlast nodesize page)
  | resizelast oldsize newsize page => exact pagesize_resizelastQueue s.1 s.2 oldsize newsize page
  | removefirst nodesize => exact pagesize_call s.1 (.removefirst nodesize)
  | removelast nodesize => exact pagesize_call s.1 (.removelast nodesize)
  | removeall => rfl
  | write mem => rfl

/-- **Runs** keep the pages sound. -/
theorem Sound.run {s : Queue × Memory} (h : Sound s.1) {calls : List Call}
    (hok : Along Queue.stepMemory Allocates s calls) :
    Sound (Refinement.run Queue.stepMemory s calls).2.1 ∧
      (Refinement.run Queue.stepMemory s calls).2.1.pagesize = s.1.pagesize := by
  induction calls generalizing s with
  | nil => exact ⟨h, rfl⟩
  | cons c calls ih =>
    obtain ⟨hsound, hpagesize⟩ := ih (h.stepMemory hok.1) hok.2
    exact ⟨hsound, hpagesize.trans (pagesize_stepMemory s c)⟩

/-- **When a size leaves the queue intact.** After any calls on a new queue, with any sizes, an
insertion makes the node or leaves the queue as it was exactly if the node fits on an empty page or
no page is allocated. `resizelast_queue` does so exactly if the node fits on an empty page, or if
the call is rejected before the page changes, or if the page keeps other bytes and no new page is
allocated. -/
theorem intact_iff {pagesize : ℕ} {queue : Queue} (hinit : initQueue pagesize = some queue)
    (mem : Memory) {calls : List Call} (hok : Along stepMemory Allocates (queue, mem) calls)
    {page : Option ℕ} (hfresh : ∀ addr ∈ page, Fresh (run stepMemory (queue, mem) calls).2.1 addr) :
    let s := (run stepMemory (queue, mem) calls).2
    (∀ nodesize, Intact (used s.1) s.1 nodesize (insertfirstQueue s.1 nodesize page) ↔
        nodesize ≤ maxelemsizeQueue pagesize ∨ page = none) ∧
      (∀ nodesize, Intact (used s.1) s.1 nodesize (insertlastQueue s.1 nodesize page) ↔
        nodesize ≤ maxelemsizeQueue pagesize ∨ page = none) ∧
      ∀ oldsize newsize, IntactResize s.1 s.2 oldsize newsize
          (resizelastQueue s.1 s.2 oldsize newsize page) ↔
        newsize ≤ maxelemsizeQueue pagesize ∨ 512 < newsize ∨ lastQueue s.1 oldsize = none ∨
          oldsize < sizelastQueue s.1 ∧ page = none := by
  obtain ⟨hpagesize, hle, layout, hlayout, hpages, hnodes⟩ := initQueue_spec hinit
  have hnew : Sound queue := by
    obtain rfl : layout = [] := by
      rw [eq_comm, List.flatMap_eq_nil_iff] at hnodes
      exact List.eq_nil_iff_forall_not_mem.mpr fun p hp => hlayout.ne_nil p hp (hnodes p hp)
    exact ⟨hle, by simp [hpages], by simp [hpages]⟩
  obtain ⟨hsound, hsame⟩ := Sound.run (s := (queue, mem)) hnew hok
  have hsize : pagesizeQueue (run stepMemory (queue, mem) calls).2.1 = pagesize := by
    rw [← hpagesize]
    unfold pagesizeQueue
    rw [hsame]
  dsimp only
  rw [← hsize]
  exact ⟨fun _ => (insertfirstQueue_cases hsound hfresh).2,
    fun _ => (insertlastQueue_cases hsound hfresh).2,
    fun _ _ => (resizelastQueue_cases hsound hfresh).2⟩

/-- A node of 10 bytes at the end of a page of 256 bytes gets all the bytes of the page. -/
theorem intact_iff_full :
    IntactResize ⟨[⟨256, 256, 246⟩], 0⟩ (fun _ => 7) 10 224
      (resizelastQueue ⟨[⟨256, 256, 246⟩], 0⟩ (fun _ => 7) 10 224 none) := by
  have hinit : initQueue 256 = some ⟨[], 0⟩ := by decide +kernel
  have hallocates : Along stepMemory Allocates (⟨[], 0⟩, fun _ => 7)
      [.insertfirst 10 (some 256)] := by
    refine ⟨?_, True.intro⟩
    rintro addr ⟨⟩
    decide
  exact ((@intact_iff 256 ⟨[], 0⟩ hinit (fun _ => 7) [.insertfirst 10 (some 256)] hallocates none
    (by simp)).2.2 10 224).mpr (Or.inl (by decide))

/-- On pages of 256 bytes, an assertion fails for a node of 300 bytes, and when a node of 10 bytes
gets 300 bytes, which the check of `resizelast_queue` accepts. -/
theorem not_intact_big :
    initQueue 256 = some ⟨[], 0⟩ ∧
      ¬ Intact ∅ ⟨[], 0⟩ 300 (insertlastQueue ⟨[], 0⟩ 300 (some 256)) ∧
      (insertlastQueue ⟨[], 0⟩ 10 (some 256)).2 = ⟨[⟨256, 42, 32⟩], 0⟩ ∧
      ∀ mem, ¬ IntactResize ⟨[⟨256, 42, 32⟩], 0⟩ mem 10 300
        (resizelastQueue ⟨[⟨256, 42, 32⟩], 0⟩ mem 10 300 none) :=
  ⟨by decide +kernel, not_intact_assertion, by decide, fun _ => not_intactResize_assertion⟩

end Queue
end CKern
