import CKern.Platform.Sync.Rwlock

/-!
# `platform/sync/rwlock.c`: how long a thread waits

* `Handover`: what a step does while some thread waits.
* `waiting_bounded`: a waiting reader is overtaken by one writer at most, and the waiting writers
  get the lock in their order, with at most one batch of readers before each of them.
-/

namespace CKern
namespace Rwlock

open Interleaving

variable {Tid : Type} [DecidableEq Tid] {s s' : State Tid} {t : Tid} {a : Act}

/-- **A step while a thread waits**: no lock is granted and the queues grow, or the first waiting
writer gets the lock, or the writer that has it hands it over to all waiting readers. -/
inductive Handover (s s' : State Tid) : Prop
  | queued (newReaders newWriters : List Tid) : (∀ u, s'.granted u = s.granted u) →
      s'.lock.writer = s.lock.writer → s'.lock.readers = s.lock.readers ++ newReaders →
      s'.lock.writers = s.lock.writers ++ newWriters → Handover s s'
  | writer (first : Tid) : s.lock.writers = first :: s'.lock.writers →
      s'.lock.readers = s.lock.readers → (s.lock.writer ≠ none → s.lock.readers = []) →
      s'.lock.writer ≠ none → (∀ u, s'.granted u = s.granted u + [first].count u) → Handover s s'
  | readers : s.lock.writer ≠ none → s'.lock.writer = none → s'.lock.writers = s.lock.writers →
      (∀ u, s'.granted u = s.granted u + s.lock.readers.count u) → Handover s s'

theorem handover_of_eq (hlock : s'.lock = s.lock) (hgranted : s'.granted = s.granted) :
    Handover s s' :=
  .queued [] [] (congrFun hgranted) (by rw [hlock]) (by rw [hlock, List.append_nil])
    (by rw [hlock, List.append_nil])

theorem exec_handover (h : Inv s) (hlen : s.lock.readers.length < 2 ^ 32)
    (hwait : s.lock.readers ≠ [] ∨ s.lock.writers ≠ []) (hs : exec s t a = some s') :
    Handover s s' := by
  obtain ⟨hexcl, hlt, hreaders, hfree⟩ := h.ordered
  have hbusy : ¬(s.lock.writer = none ∧ s.lock.nrofreader = 0) := fun ⟨hw, h0⟩ => by
    obtain ⟨hr, hw⟩ := hfree hw h0
    exact absurd hwait (not_or.mpr ⟨not_not.mpr hr, not_not.mpr hw⟩)
  rw [exec.eq_def] at hs
  split at hs
  · have hspec := lockreader_spec h.ordered t
    obtain rfl := Option.some.inj hs
    generalize lockreader s.lock t = o at *
    cases hspec with
    | err err => exact handover_of_eq rfl rfl
    | wait => exact .queued [t] [] (fun _ => rfl) rfl rfl (List.append_nil _).symm
    | ok hwriters hwriter =>
      have hne := hwait.resolve_right (absurd hwriters)
      exact absurd (hreaders hne) (not_or.mpr ⟨not_not.mpr hwriter, not_not.mpr hwriters⟩)
  · have hspec := lockwriter_spec s.lock t
    obtain rfl := Option.some.inj hs
    generalize lockwriter s.lock t = o at *
    cases hspec with
    | err err => exact handover_of_eq rfl rfl
    | wait => exact .queued [] [t] (fun _ => rfl) rfl (List.append_nil _).symm rfl
    | ok hwriter h0 => exact absurd ⟨hwriter, h0⟩ hbusy
  · have hspec := unlockreader_spec h.ordered
    obtain rfl := Option.some.inj hs
    generalize unlockreader s.lock = o at *
    cases hspec with
    | err => exact handover_of_eq rfl rfl
    | writer first rest h1 hlist =>
      exact .writer first hlist rfl (fun hne => absurd (hexcl hne) (by omega))
        (Option.some_ne_none first) fun _ => rfl
    | free =>
      exact .queued [] [] (fun _ => rfl) rfl (List.append_nil _).symm (List.append_nil _).symm
  · have hspec := unlockwriter_spec h.ordered hlen t
    obtain rfl := Option.some.inj hs
    generalize unlockwriter s.lock t = o at *
    cases hspec with
    | err => exact handover_of_eq rfl rfl
    | readers hw hne =>
      exact .readers (hw ▸ Option.some_ne_none t) rfl rfl fun u =>
        congrArg (s.granted u + ·) ((fromLast_perm s.lock.readers).count_eq u)
    | writer first rest hw hnil hlist =>
      exact .writer first hlist rfl (fun _ => hnil) (Option.some_ne_none first) fun _ => rfl
    | free hw hr hwr => exact absurd hwait (not_or.mpr ⟨not_not.mpr hr, not_not.mpr hwr⟩)
  · split_ifs at hs <;> obtain rfl := Option.some.inj hs <;> exact handover_of_eq rfl rfl
  · cases hs

theorem granted_le (hs : exec s t a = some s') (u : Tid) : s.granted u ≤ s'.granted u := by
  have hlock (o : Outcome Tid) : s.granted u ≤ (s.locking t o).granted u := by
    rw [State.locking]
    split <;> simp only [State.grant] <;> omega
  rw [exec.eq_def] at hs
  split at hs
  · exact Option.some.inj hs ▸ hlock _
  · exact Option.some.inj hs ▸ hlock _
  · obtain rfl := Option.some.inj hs
    simp only [State.grant]
    omega
  · obtain rfl := Option.some.inj hs
    simp only [State.grant]
    omega
  · split_ifs at hs <;> exact Option.some.inj hs ▸ le_rfl
  · cases hs

/-- While the reader `t` waits, one lock at most is granted, and it is a writer that has it then. -/
def ReaderWaits (s : State Tid) (t : Tid) (s' : State Tid) : Prop :=
  t ∈ s'.lock.readers ∧ ((∀ u, s'.granted u = s.granted u) ∨
    s'.lock.writer ≠ none ∧ ∃ w, ∀ u, s'.granted u = s.granted u + [w].count u)

/-- While the writer `t` waits, only the writers `ahead` of it get the lock for writing. -/
def WriterWaits (s : State Tid) (t : Tid) (s' : State Tid) : Prop :=
  ∃ ahead rest new batches, s.lock.writers = ahead ++ rest ∧ t ∈ rest ∧
    s'.lock.writers = rest ++ new ∧ (∀ u, s'.granted u ≤ s.granted u + ahead.count u + batches) ∧
    batches ≤ ahead.length + 1 ∧ (s'.lock.writer ≠ none → batches ≤ ahead.length)

variable {s₀ : State Tid}

theorem ReaderWaits.step (h : ReaderWaits s₀ t s) (hstep : Handover s s') :
    s₀.granted t < s'.granted t ∨ ReaderWaits s₀ t s' := by
  obtain ⟨ht, hgranted⟩ := h
  cases hstep with
  | queued newReaders newWriters hsame hwriter hreaders hwriters =>
    refine Or.inr ⟨hreaders ▸ List.mem_append_left _ ht, ?_⟩
    simpa only [hsame, hwriter] using hgranted
  | writer first hlist hreaders hnil hwriter hfirst =>
    have hnone : s.lock.writer = none := by
      by_contra hne
      rw [hnil hne] at ht
      exact List.not_mem_nil ht
    have hsame := hgranted.resolve_right fun h => h.1 hnone
    exact Or.inr ⟨hreaders ▸ ht, Or.inr ⟨hwriter, first, fun u => by rw [hfirst, hsame]⟩⟩
  | readers hwriter hnone hwriters hbatch =>
    have hpos := List.count_pos_iff.mpr ht
    have hle : s₀.granted t ≤ s.granted t := by
      rcases hgranted with hsame | ⟨-, w, hone⟩
      · exact (hsame t).ge
      · exact (Nat.le_add_right _ _).trans (hone t).ge
    exact Or.inl (by rw [hbatch]; omega)

theorem WriterWaits.step (h : WriterWaits s₀ t s) (hle : s₀.granted t ≤ s.granted t)
    (hnodup : s.lock.readers.Nodup) (hstep : Handover s s') :
    s₀.granted t < s'.granted t ∨ WriterWaits s₀ t s' := by
  obtain ⟨ahead, rest, new, batches, hlist, ht, hnow, hgranted, hbatches, hbusy⟩ := h
  cases hstep with
  | queued newReaders newWriters hsame hwriter hreaders hwriters =>
    refine Or.inr ⟨ahead, rest, new ++ newWriters, batches, hlist, ht, ?_, ?_, hbatches, ?_⟩
    · rw [hwriters, hnow, List.append_assoc]
    · exact fun u => (hsame u).trans_le (hgranted u)
    · rwa [hwriter]
  | writer first hfirst hreaders hnil hwriter hgrant =>
    obtain ⟨x, rest, rfl⟩ := List.exists_cons_of_ne_nil (List.ne_nil_of_mem ht)
    obtain ⟨rfl, hbehind⟩ := List.cons.inj (hfirst.symm.trans hnow)
    rcases List.mem_cons.mp ht with rfl | ht
    · have hself := hgrant t
      rw [List.count_singleton_self] at hself
      exact Or.inl (by omega)
    · refine Or.inr ⟨ahead ++ [first], rest, new, batches, ?_, ht, hbehind, fun u => ?_, ?_,
        fun _ => ?_⟩
      · rw [hlist, List.append_assoc, List.singleton_append]
      · have hu := hgranted u
        rw [hgrant, List.count_append]
        omega
      · rw [List.length_append]
        omega
      · rwa [List.length_append]
  | readers hwriter hnone hwriters hbatch =>
    refine Or.inr ⟨ahead, rest, new, batches + 1, hlist, ht, hwriters.trans hnow, fun u => ?_,
      Nat.succ_le_succ (hbusy hwriter), fun hne => absurd hnone hne⟩
    have hu := hgranted u
    have hone := List.nodup_iff_count_le_one.mp hnodup u
    rw [hbatch]
    omega

/-- **Bounded waiting.** Let a thread wait for the lock in a state that the threads have reached,
and let them go on in any way that does not grant it the lock. If it waits for reading then at most
one lock was granted since. If it waits for writing then the waiting writers got the lock in their
order, and no thread got it more often than once for each writer in front of it, and once more, for
reading. -/
theorem waiting_bounded (hthreads : ∀ l : List Tid, l.Nodup → l.length < 2 ^ 32)
    (h : Steps exec IsCalled State.init s) (hrun : Steps exec IsCalled s s')
    (hwait : s'.granted t = s.granted t) :
    (t ∈ s.lock.readers → t ∈ s'.lock.readers ∧
      ((∀ u, s'.granted u = s.granted u) ∨ ∃ w, ∀ u, s'.granted u = s.granted u + [w].count u)) ∧
    (t ∈ s.lock.writers → ∃ ahead rest new, s.lock.writers = ahead ++ rest ∧ t ∈ rest ∧
      s'.lock.writers = rest ++ new ∧
      ∀ u, s'.granted u ≤ s.granted u + ahead.count u + (ahead.length + 1)) := by
  have hinv : Inv s := h.invariant Inv inv_init fun _ _ _ _ hinv hcall hs =>
    inv_exec hthreads hinv hcall hs
  have hlen {s : State Tid} (h : Inv s) : s.lock.readers.length < 2 ^ 32 :=
    hthreads _ (h.nodup.sublist (List.sublist_append_left _ _))
  constructor
  · intro ht
    have hreader : Inv s' ∧ (s.granted t < s'.granted t ∨ ReaderWaits s t s') := by
      refine hrun.invariant (fun s' => Inv s' ∧ (s.granted t < s'.granted t ∨ ReaderWaits s t s'))
        ⟨hinv, Or.inr ⟨ht, Or.inl fun _ => rfl⟩⟩ fun s₁ u a s₂ ⟨h₁, hw⟩ hcall hs => ?_
      refine ⟨inv_exec hthreads h₁ hcall hs, ?_⟩
      rcases hw with hlt | hw
      · exact Or.inl (hlt.trans_le (granted_le hs t))
      · exact hw.step (exec_handover h₁ (hlen h₁) (Or.inl (List.ne_nil_of_mem hw.1)) hs)
    obtain ⟨hmem, hgranted⟩ := hreader.2.resolve_left (by omega)
    exact ⟨hmem, hgranted.imp_right And.right⟩
  · intro ht
    have hwriter : Inv s' ∧ s.granted t ≤ s'.granted t ∧
        (s.granted t < s'.granted t ∨ WriterWaits s t s') := by
      refine hrun.invariant (fun s' => Inv s' ∧ s.granted t ≤ s'.granted t ∧
        (s.granted t < s'.granted t ∨ WriterWaits s t s'))
        ⟨hinv, le_rfl, Or.inr ⟨[], s.lock.writers, [], 0, rfl, ht, (List.append_nil _).symm,
          fun u => Nat.le_refl _, Nat.zero_le _, fun _ => Nat.zero_le _⟩⟩
        fun s₁ u a s₂ ⟨h₁, hle, hw⟩ hcall hs => ?_
      refine ⟨inv_exec hthreads h₁ hcall hs, hle.trans (granted_le hs t), ?_⟩
      rcases hw with hlt | hw
      · exact Or.inl (hlt.trans_le (granted_le hs t))
      · obtain ⟨ahead, rest, new, -, -, hrest, hnow, -⟩ := id hw
        have hne : s₁.lock.writers ≠ [] :=
          hnow ▸ List.append_ne_nil_of_left_ne_nil (List.ne_nil_of_mem hrest) new
        exact hw.step hle (h₁.nodup.sublist (List.sublist_append_left _ _))
          (exec_handover h₁ (hlen h₁) (Or.inr hne) hs)
    obtain ⟨ahead, rest, new, batches, hlist, hmem, hnow, hgranted, hbatches, -⟩ :=
      hwriter.2.2.resolve_left (by omega)
    exact ⟨ahead, rest, new, hlist, hmem, hnow, fun u =>
      (hgranted u).trans (Nat.add_le_add_left hbatches _)⟩

/-- A reader waits behind a writer, which gets the lock. -/
theorem waiting_bounded_reader : ∃ s s' : State (Fin 3),
    execAll exec State.init [(0, .lockreader), (1, .lockwriter), (2, .lockreader)] = some s ∧
    exec s 0 .unlockreader = some s' ∧ 2 ∈ s'.lock.readers := by
  refine ⟨_, _, rfl, rfl, ((waiting_bounded (t := (2 : Fin 3)) (fun l hl => ?_)
    ((((Steps.refl _).tail (t := 0) (a := .lockreader) nofun rfl).tail (t := 1) (a := .lockwriter)
      nofun rfl).tail (t := 2) (a := .lockreader) nofun rfl)
    ((Steps.refl _).tail (t := 0) (a := .unlockreader) (fun _ => Or.inl (by decide)) rfl)
    (by rfl)).1 (by decide)).1⟩
  have hcard := hl.length_le_card
  rw [Fintype.card_fin] at hcard
  omega

end Rwlock
end CKern
