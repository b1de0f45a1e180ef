import CKern.Io.Www.Uri

/-!
# `io/www/uri.c`: normalized paths

* `Normalized`: what `normalize_path` returns, a root or a sequence of `../` with named components
  behind it.
* `normalizePath_normalized`, `normalizePath_idem`: it returns such a path, with the length of the
  start that is never removed, and returns it again.
* `KeepsPath.normalizePath`: bytes may be encoded before or after, if slashes and dots are not touched.
-/

namespace CKern
namespace Uri

variable {out path rest comp : List UInt8} {prefixpos fuel : ℕ} {isStart : Bool}

/-! ## One component -/

/-- The output and its fixed start behind one component, which `slash` ends. -/
def normalizeStep (isStart : Bool) (out : List UInt8) (prefixpos : ℕ) (comp slash : List UInt8) :
    List UInt8 × ℕ :=
  if comp = [] then if isStart then ([charSlash], 1) else (out, prefixpos)
  else if comp = [charDot] then (out, prefixpos)
  else if comp = [charDot, charDot] then
    if out.length ≠ prefixpos then (skipPrevPath out, prefixpos)
    else if prefixpos = 1 then (out, prefixpos)
    else (out ++ comp ++ slash, prefixpos + 2 + slash.length)
  else (out ++ comp ++ slash, prefixpos)

theorem normalizeLoop_nil : normalizeLoop fuel isStart out prefixpos [] = (out, prefixpos) := by
  cases fuel <;> rfl

theorem normalizeLoop_step (h : rest ≠ []) :
    normalizeLoop (fuel + 1) isStart out prefixpos rest =
      normalizeLoop fuel false
        (normalizeStep isStart out prefixpos (rest.takeWhile (· ≠ charSlash))
          ((rest.dropWhile (· ≠ charSlash)).take 1)).1
        (normalizeStep isStart out prefixpos (rest.takeWhile (· ≠ charSlash))
          ((rest.dropWhile (· ≠ charSlash)).take 1)).2
        ((rest.dropWhile (· ≠ charSlash)).drop 1) := by
  rw [normalizeLoop, if_neg h, normalizeStep]
  dsimp only
  split_ifs <;> rfl

theorem normalizeLoop_fuel (n : ℕ) :
    ∀ (m : ℕ) (isStart : Bool) (out : List UInt8) (prefixpos : ℕ) (rest : List UInt8),
      rest.length ≤ n → rest.length ≤ m →
        normalizeLoop n isStart out prefixpos rest = normalizeLoop m isStart out prefixpos rest := by
  induction n with
  | zero =>
    intro m isStart out prefixpos rest hn _
    rw [List.eq_nil_of_length_eq_zero (Nat.le_zero.mp hn), normalizeLoop_nil, normalizeLoop_nil]
  | succ n ih =>
    intro m isStart out prefixpos rest hn hm
    rcases eq_or_ne rest [] with rfl | hne
    · rw [normalizeLoop_nil, normalizeLoop_nil]
    · have hpos := List.length_pos_of_ne_nil hne
      have hle : (rest.dropWhile (· ≠ charSlash)).length ≤ rest.length :=
        (List.dropWhile_sublist _).length_le
      obtain ⟨k, rfl⟩ : ∃ k, m = k + 1 := ⟨m - 1, by omega⟩
      rw [normalizeLoop_step hne, normalizeLoop_step hne]
      exact ih k _ _ _ _ (by rw [List.length_drop]; omega) (by rw [List.length_drop]; omega)

/-- The loop from any state on. -/
def normalizeFrom (isStart : Bool) (out : List UInt8) (prefixpos : ℕ) (rest : List UInt8) :
    List UInt8 × ℕ := normalizeLoop rest.length isStart out prefixpos rest

theorem normalizePath_eq (path : List UInt8) : normalizePath path = normalizeFrom true [] 0 path := rfl

theorem normalizeFrom_nil : normalizeFrom isStart out prefixpos [] = (out, prefixpos) := rfl

theorem takeWhile_ne_slash (h : charSlash ∉ comp) (rest : List UInt8) :
    (comp ++ charSlash :: rest).takeWhile (· ≠ charSlash) = comp ∧
      (comp ++ charSlash :: rest).dropWhile (· ≠ charSlash) = charSlash :: rest := by
  have hall : ∀ c ∈ comp, decide (c ≠ charSlash) = true := fun c hc =>
    decide_eq_true fun heq => h (heq ▸ hc)
  rw [List.takeWhile_append_of_pos hall, List.dropWhile_append_of_pos hall]
  exact ⟨List.append_nil comp, rfl⟩

theorem normalizeFrom_slash (isStart : Bool) (out : List UInt8) (prefixpos : ℕ) (h : charSlash ∉ comp)
    (rest : List UInt8) :
    normalizeFrom isStart out prefixpos (comp ++ charSlash :: rest) =
      normalizeFrom false (normalizeStep isStart out prefixpos comp [charSlash]).1
        (normalizeStep isStart out prefixpos comp [charSlash]).2 rest := by
  obtain ⟨htake, hdrop⟩ := takeWhile_ne_slash h rest
  obtain ⟨k, hk⟩ : ∃ k, (comp ++ charSlash :: rest).length = k + 1 :=
    ⟨comp.length + rest.length, by rw [List.length_append, List.length_cons]; omega⟩
  have hle : rest.length ≤ k := by
    rw [List.length_append, List.length_cons] at hk
    omega
  rw [normalizeFrom, hk, normalizeLoop_step (List.append_ne_nil_of_right_ne_nil _ (List.cons_ne_nil _ _)),
    htake, hdrop]
  exact normalizeLoop_fuel _ _ _ _ _ _ hle le_rfl

theorem normalizeFrom_last (h : charSlash ∉ comp) (hne : comp ≠ []) :
    normalizeFrom isStart out prefixpos comp = normalizeStep isStart out prefixpos comp [] := by
  have hall : ∀ c ∈ comp, decide (c ≠ charSlash) = true := fun c hc =>
    decide_eq_true fun heq => h (heq ▸ hc)
  obtain ⟨k, hk⟩ : ∃ k, comp.length = k + 1 :=
    ⟨comp.length - 1, by have := List.length_pos_of_ne_nil hne; omega⟩
  have htake : comp.takeWhile (· ≠ charSlash) = comp := List.takeWhile_eq_self_iff.mpr hall
  have hdrop : comp.dropWhile (· ≠ charSlash) = [] := List.dropWhile_eq_nil_iff.mpr hall
  rw [normalizeFrom, hk, normalizeLoop_step hne, htake, hdrop, List.drop_nil, normalizeLoop_nil]
  rfl

@[elab_as_elim]
theorem pathInduction {motive : List UInt8 → Prop} (nil : motive [])
    (slash : ∀ comp rest, charSlash ∉ comp → motive rest → motive (comp ++ charSlash :: rest))
    (last : ∀ comp, comp ≠ [] → charSlash ∉ comp → motive comp) (l : List UInt8) : motive l := by
  rcases eq_or_ne l [] with rfl | hne
  · exact nil
  · have happ := List.takeWhile_append_dropWhile (p := (· ≠ charSlash)) (l := l)
    have hcomp : charSlash ∉ l.takeWhile (· ≠ charSlash) := fun h =>
      absurd (List.mem_takeWhile_imp h) (by simp)
    rcases hdrop : l.dropWhile (· ≠ charSlash) with _ | ⟨c, rest⟩
    · rw [hdrop, List.append_nil] at happ
      exact last l hne (happ ▸ hcomp)
    · have hc : c = charSlash := by
        have h := List.head?_dropWhile_not (· ≠ charSlash) l
        rw [hdrop] at h
        simpa using h
      rw [hdrop, hc] at happ
      have hlt : rest.length < l.length := by
        rw [← happ, List.length_append, List.length_cons]
        omega
      rw [← happ]
      exact slash _ rest hcomp (pathInduction nil slash last rest)
termination_by l.length

/-! ## Paths that are normalized -/

/-- A component that is kept. -/
def IsName (comp : List UInt8) : Prop :=
  comp ≠ [] ∧ charSlash ∉ comp ∧ comp ≠ [charDot] ∧ comp ≠ [charDot, charDot]

/-- The output between two components, with the length of the start that is never removed. -/
inductive Normal : List UInt8 → ℕ → Prop
  | nil : Normal [] 0
  | root : Normal [charSlash] 1
  | up {out : List UInt8} : Normal out out.length → out.length ≠ 1 →
      Normal (out ++ [charDot, charDot, charSlash]) (out.length + 3)
  | dir {out comp : List UInt8} {prefixpos : ℕ} : Normal out prefixpos → IsName comp →
      Normal (out ++ comp ++ [charSlash]) prefixpos

/-- A normalized path: there may be no slash at its end. -/
inductive Normalized : List UInt8 → ℕ → Prop
  | dir {out : List UInt8} {prefixpos : ℕ} : Normal out prefixpos → Normalized out prefixpos
  | up {out : List UInt8} : Normal out out.length → out.length ≠ 1 →
      Normalized (out ++ [charDot, charDot]) (out.length + 2)
  | file {out comp : List UInt8} {prefixpos : ℕ} : Normal out prefixpos → IsName comp →
      Normalized (out ++ comp) prefixpos

theorem Normal.prefixpos_le (h : Normal out prefixpos) : prefixpos ≤ out.length := by
  induction h with
  | nil => exact le_rfl
  | root => exact le_rfl
  | up _ _ _ =>
    rw [List.length_append]
    exact le_rfl
  | dir _ _ ih =>
    rw [List.length_append, List.length_append]
    omega

theorem Normal.eq_nil_or_concat (h : Normal out prefixpos) :
    out = [] ∨ ∃ o, out = o ++ [charSlash] := by
  cases h with
  | nil => exact Or.inl rfl
  | root => exact Or.inr ⟨[], rfl⟩
  | @up o _ _ => exact Or.inr ⟨o ++ [charDot, charDot], by rw [List.append_assoc]; rfl⟩
  | dir _ _ => exact Or.inr ⟨_, rfl⟩

theorem Normal.skipPrevPath_dir (h : Normal out prefixpos) (hc : charSlash ∉ comp) :
    skipPrevPath (out ++ comp ++ [charSlash]) = out := by
  have hall : ∀ c ∈ comp.reverse, decide (c ≠ charSlash) = true := fun c hc' =>
    decide_eq_true fun heq => hc (heq ▸ List.mem_reverse.mp hc')
  rw [skipPrevPath, List.dropLast_concat, List.reverse_append, List.dropWhile_append_of_pos hall]
  rcases h.eq_nil_or_concat with rfl | ⟨o, rfl⟩
  · rfl
  · rw [List.reverse_append, List.reverse_singleton, List.singleton_append,
      List.dropWhile_cons_of_neg (by simp), List.reverse_cons, List.reverse_reverse]

theorem Normal.exists_dir (h : Normal out prefixpos) (hne : out.length ≠ prefixpos) :
    ∃ o comp, out = o ++ comp ++ [charSlash] ∧ Normal o prefixpos ∧ IsName comp := by
  cases h with
  | nil => exact absurd rfl hne
  | root => exact absurd rfl hne
  | up _ _ => exact absurd List.length_append hne
  | dir h hc => exact ⟨_, _, rfl, h, hc⟩

theorem Normal.step (h : Normal out prefixpos) (hs : isStart = true → out = [] ∧ prefixpos = 0)
    (hc : charSlash ∉ comp) :
    Normal (normalizeStep isStart out prefixpos comp [charSlash]).1
      (normalizeStep isStart out prefixpos comp [charSlash]).2 := by
  rw [normalizeStep]
  split_ifs with hnil hstart hdot hdd hlen hone
  · exact .root
  · exact h
  · exact h
  · obtain ⟨o, c, rfl, ho, hn⟩ := h.exists_dir hlen
    dsimp only
    rw [ho.skipPrevPath_dir hn.2.1]
    exact ho
  · exact h
  · obtain rfl : out.length = prefixpos := not_not.mp hlen
    rw [hdd, List.append_assoc]
    exact .up h hone
  · exact .dir h ⟨hnil, hc, hdot, hdd⟩

theorem Normal.normalizeFrom (path : List UInt8) :
    ∀ {isStart : Bool} {out : List UInt8} {prefixpos : ℕ}, Normal out prefixpos →
      (isStart = true → out = [] ∧ prefixpos = 0) →
      Normalized (normalizeFrom isStart out prefixpos path).1
        (normalizeFrom isStart out prefixpos path).2 := by
  induction path using pathInduction with
  | nil => exact fun h _ => .dir h
  | slash comp rest hc ih =>
    intro isStart out prefixpos h hs
    rw [normalizeFrom_slash _ _ _ hc]
    exact ih (h.step hs hc) nofun
  | last comp hne hc =>
    intro isStart out prefixpos h hs
    rw [normalizeFrom_last hc hne, normalizeStep, if_neg hne]
    split_ifs with hdot hdd hlen hone
    · exact .dir h
    · obtain ⟨o, c, rfl, ho, hn⟩ := h.exists_dir hlen
      dsimp only
      rw [ho.skipPrevPath_dir hn.2.1]
      exact .dir ho
    · exact .dir h
    · obtain rfl : out.length = prefixpos := not_not.mp hlen
      rw [hdd, List.append_nil]
      exact .up h hone
    · rw [List.append_nil]
      exact .file h ⟨hne, hc, hdot, hdd⟩

/-- **A normalized path is returned**, with the length of its fixed start. -/
theorem normalizePath_normalized (path : List UInt8) :
    Normalized (normalizePath path).1 (normalizePath path).2 :=
  Normal.nil.normalizeFrom path fun _ => ⟨rfl, rfl⟩

theorem slash_not_mem_dots : charSlash ∉ [charDot, charDot] := by decide

theorem Normal.normalizeFrom_append (h : Normal out prefixpos) :
    ∀ rest, CKern.Uri.normalizeFrom true [] 0 (out ++ rest) =
      CKern.Uri.normalizeFrom (decide (out = [])) out prefixpos rest := by
  induction h with
  | nil => exact fun _ => rfl
  | root =>
    intro rest
    have h := normalizeFrom_slash true [] 0
      (List.not_mem_nil (a := charSlash)) rest
    exact h
  | @up out h hone ih =>
    intro rest
    have hdots : ¬[charDot, charDot] = ([] : List UInt8) := by decide
    have hdot : ¬[charDot, charDot] = [charDot] := by decide
    have hassoc : out ++ [charDot, charDot, charSlash] ++ rest =
        out ++ ([charDot, charDot] ++ charSlash :: rest) := by simp
    rw [hassoc, ih, normalizeFrom_slash _ _ _ slash_not_mem_dots, normalizeStep, if_neg hdots, if_neg hdot,
      if_pos rfl, if_neg (not_not.mpr rfl), if_neg hone, List.append_assoc]
    have hne : decide (out ++ [charDot, charDot, charSlash] = []) = false :=
      decide_eq_false (List.append_ne_nil_of_right_ne_nil _ (List.cons_ne_nil _ _))
    rw [hne]
    rfl
  | @dir out comp prefixpos h hc ih =>
    intro rest
    have hassoc : out ++ comp ++ [charSlash] ++ rest = out ++ (comp ++ charSlash :: rest) := by simp
    have hne : decide (out ++ comp ++ [charSlash] = []) = false :=
      decide_eq_false (List.append_ne_nil_of_right_ne_nil _ (List.cons_ne_nil _ _))
    rw [hassoc, ih, normalizeFrom_slash _ _ _ hc.2.1, normalizeStep, if_neg hc.1, if_neg hc.2.2.1,
      if_neg hc.2.2.2, hne]

theorem Normalized.normalizePath_eq (h : Normalized out prefixpos) :
    normalizePath out = (out, prefixpos) := by
  rw [Uri.normalizePath_eq]
  cases h with
  | dir h =>
    have hrun := h.normalizeFrom_append []
    rw [List.append_nil] at hrun
    rw [hrun, normalizeFrom_nil]
  | up h hone =>
    have hdots : ¬[charDot, charDot] = ([] : List UInt8) := by decide
    have hdot : ¬[charDot, charDot] = [charDot] := by decide
    rw [h.normalizeFrom_append, normalizeFrom_last slash_not_mem_dots hdots, normalizeStep,
      if_neg hdots, if_neg hdot, if_pos rfl, if_neg (not_not.mpr rfl), if_neg hone, List.append_nil]
    rfl
  | file h hc =>
    rw [h.normalizeFrom_append, normalizeFrom_last hc.2.1 hc.1, normalizeStep, if_neg hc.1,
      if_neg hc.2.2.1, if_neg hc.2.2.2, List.append_nil]

/-- **Normalizing is idempotent.** -/
theorem normalizePath_idem (path : List UInt8) :
    normalizePath (normalizePath path).1 = normalizePath path :=
  (normalizePath_normalized path).normalizePath_eq

theorem Normalized.not_slashes (h : Normalized out prefixpos) : hasSlashes out = false := by
  rw [← Bool.not_eq_true, hasSlashes_iff]
  rintro ⟨l, rfl⟩
  have hrun := h.normalizePath_eq
  have hnil : charSlash ∉ ([] : List UInt8) := List.not_mem_nil
  have h1 := normalizeFrom_slash true [] 0 hnil (charSlash :: l)
  have h2 := normalizeFrom_slash false [charSlash] 1 hnil l
  have hle := length_normalizeLoop_le l.length false [charSlash] 1 l
  have heq : normalizeFrom false [charSlash] 1 l = (charSlash :: charSlash :: l, prefixpos) :=
    h2.symm.trans (h1.symm.trans hrun)
  rw [normalizeFrom] at heq
  rw [heq] at hle
  simp only [List.length_cons, List.length_nil] at hle
  omega

theorem Normal.eq_cons_of_one (h : Normal out 1) : ∃ l, out = charSlash :: l := by
  generalize hone : 1 = prefixpos at h
  induction h with
  | nil => exact absurd hone one_ne_zero
  | root => exact ⟨[], rfl⟩
  | up _ _ _ => exact absurd hone (by omega)
  | dir _ _ ih =>
    obtain ⟨l, rfl⟩ := ih hone
    exact ⟨_, rfl⟩

theorem Normalized.eq_cons_of_one (h : Normalized out 1) : ∃ l, out = charSlash :: l := by
  generalize hone : 1 = prefixpos at h
  cases h with
  | dir h => exact Normal.eq_cons_of_one (hone ▸ h)
  | up _ _ => exact absurd hone (by omega)
  | file h _ =>
    obtain ⟨l, rfl⟩ := Normal.eq_cons_of_one (hone ▸ h)
    exact ⟨_, rfl⟩

theorem normalizeStep_one (out comp slash : List UInt8) :
    (normalizeStep false out 1 comp slash).2 = 1 := by
  rw [normalizeStep]
  split_ifs <;> first | rfl | contradiction

theorem normalizeFrom_one (path : List UInt8) :
    ∀ out, (normalizeFrom false out 1 path).2 = 1 := by
  induction path using pathInduction with
  | nil => exact fun _ => rfl
  | slash comp rest hc ih =>
    intro out
    rw [normalizeFrom_slash _ _ _ hc, normalizeStep_one]
    exact ih _
  | last comp hne hc =>
    intro out
    rw [normalizeFrom_last hc hne, normalizeStep_one]

theorem normalizePath_cons_slash (rest : List UInt8) :
    (normalizePath (charSlash :: rest)).2 = 1 ∧
      ∃ l, (normalizePath (charSlash :: rest)).1 = charSlash :: l := by
  have hnil : charSlash ∉ ([] : List UInt8) := List.not_mem_nil
  have h := normalizeFrom_slash true [] 0 hnil rest
  have hone : (normalizePath (charSlash :: rest)).2 = 1 :=
    (congrArg Prod.snd h).trans (normalizeFrom_one rest [charSlash])
  exact ⟨hone, (hone ▸ normalizePath_normalized (charSlash :: rest)).eq_cons_of_one⟩

/-! ## Encoded paths -/

/-- An encoding of bytes that keeps the slashes and dots and writes no others. -/
structure KeepsPath (f : UInt8 → List UInt8) : Prop where
  slash : f charSlash = [charSlash]
  dot : f charDot = [charDot]
  ne_nil : ∀ c, f c ≠ []
  not_slash : ∀ c, c ≠ charSlash → charSlash ∉ f c
  not_dot : ∀ c, c ≠ charDot → charDot ∉ f c

variable {f : UInt8 → List UInt8}

namespace KeepsPath

theorem slash_mem_iff (hf : KeepsPath f) : charSlash ∈ comp.flatMap f ↔ charSlash ∈ comp := by
  rw [List.mem_flatMap]
  constructor
  · rintro ⟨c, hc, hmem⟩
    rcases eq_or_ne c charSlash with rfl | hne
    · exact hc
    · exact absurd hmem (hf.not_slash c hne)
  · exact fun h => ⟨charSlash, h, by rw [hf.slash]; exact List.mem_singleton_self _⟩

theorem flatMap_eq_nil (hf : KeepsPath f) : comp.flatMap f = [] ↔ comp = [] := by
  rw [List.flatMap_eq_nil_iff]
  constructor
  · intro h
    rcases comp with _ | ⟨c, cs⟩
    · rfl
    · exact absurd (h c List.mem_cons_self) (hf.ne_nil c)
  · rintro rfl
    exact fun _ h => absurd h List.not_mem_nil

theorem flatMap_eq_replicate (hf : KeepsPath f) (n : ℕ) :
    ∀ comp : List UInt8, comp.flatMap f = List.replicate n charDot ↔ comp = List.replicate n charDot := by
  induction n with
  | zero => exact fun _ => hf.flatMap_eq_nil
  | succ n ih =>
    intro comp
    rcases comp with _ | ⟨c, cs⟩
    · exact ⟨fun h => absurd h.symm (List.cons_ne_nil _ _), fun h => absurd h.symm (List.cons_ne_nil _ _)⟩
    · rw [List.flatMap_cons, List.replicate_succ, List.cons.injEq, ← ih cs]
      rcases eq_or_ne c charDot with rfl | hne
      · rw [hf.dot, List.singleton_append, List.cons.injEq]
      · refine ⟨fun h => ?_, fun h => absurd h.1 hne⟩
        obtain ⟨d, ds, hd⟩ := List.exists_cons_of_ne_nil (hf.ne_nil c)
        rw [hd, List.cons_append, List.cons.injEq] at h
        have hmem : charDot ∈ f c := by
          rw [hd, h.1]
          exact List.mem_cons_self
        exact absurd hmem (hf.not_dot c hne)

theorem flatMap_eq_dot (hf : KeepsPath f) : comp.flatMap f = [charDot] ↔ comp = [charDot] :=
  hf.flatMap_eq_replicate 1 comp

theorem flatMap_eq_dots (hf : KeepsPath f) :
    comp.flatMap f = [charDot, charDot] ↔ comp = [charDot, charDot] :=
  hf.flatMap_eq_replicate 2 comp

theorem isName (hf : KeepsPath f) (h : IsName comp) : IsName (comp.flatMap f) :=
  ⟨fun h0 => h.1 (hf.flatMap_eq_nil.mp h0), fun h0 => h.2.1 (hf.slash_mem_iff.mp h0),
    fun h0 => h.2.2.1 (hf.flatMap_eq_dot.mp h0), fun h0 => h.2.2.2 (hf.flatMap_eq_dots.mp h0)⟩

theorem flatMap_slash (hf : KeepsPath f) : [charSlash].flatMap f = [charSlash] := by
  rw [List.flatMap_singleton, hf.slash]

theorem flatMap_up (hf : KeepsPath f) :
    [charDot, charDot, charSlash].flatMap f = [charDot, charDot, charSlash] := by
  simp only [List.flatMap_cons, List.flatMap_nil, hf.dot, hf.slash]
  rfl

theorem length_le (hf : KeepsPath f) (l : List UInt8) : l.length ≤ (l.flatMap f).length := by
  induction l with
  | nil => exact le_rfl
  | cons c cs ih =>
    have hpos := List.length_pos_of_ne_nil (hf.ne_nil c)
    rw [List.flatMap_cons, List.length_append, List.length_cons]
    omega

theorem flatMap_start (hf : KeepsPath f) (h : Normal out prefixpos) (hlen : out.length = prefixpos) :
    out.flatMap f = out := by
  induction h with
  | nil => rfl
  | root => exact hf.flatMap_slash
  | up _ _ ih => rw [List.flatMap_append, ih rfl, hf.flatMap_up]
  | dir h _ _ =>
    have hle := h.prefixpos_le
    simp only [List.length_append, List.length_singleton] at hlen
    omega

theorem normal (hf : KeepsPath f) (h : Normal out prefixpos) : Normal (out.flatMap f) prefixpos := by
  induction h with
  | nil => exact .nil
  | root =>
    rw [hf.flatMap_slash]
    exact .root
  | up h hone ih =>
    have heq := hf.flatMap_start h rfl
    rw [List.flatMap_append, heq, hf.flatMap_up]
    exact .up h hone
  | dir _ hc ih =>
    rw [List.flatMap_append, List.flatMap_append, hf.flatMap_slash]
    exact .dir ih (hf.isName hc)

theorem length_eq_iff (hf : KeepsPath f) (h : Normal out prefixpos) :
    (out.flatMap f).length = prefixpos ↔ out.length = prefixpos := by
  constructor
  · intro heq
    exact le_antisymm (heq ▸ hf.length_le out) h.prefixpos_le
  · intro heq
    rw [hf.flatMap_start h heq, heq]

theorem skipPrevPath (hf : KeepsPath f) (h : Normal out prefixpos) (hlen : out.length ≠ prefixpos) :
    Uri.skipPrevPath (out.flatMap f) = (Uri.skipPrevPath out).flatMap f := by
  obtain ⟨o, c, rfl, ho, hn⟩ := h.exists_dir hlen
  rw [ho.skipPrevPath_dir hn.2.1, List.flatMap_append, List.flatMap_append, hf.flatMap_slash,
    (hf.normal ho).skipPrevPath_dir (hf.isName hn).2.1]

theorem step (hf : KeepsPath f) (h : Normal out prefixpos) {slash : List UInt8}
    (hslash : slash.flatMap f = slash) :
    normalizeStep isStart (out.flatMap f) prefixpos (comp.flatMap f) slash =
      ((normalizeStep isStart out prefixpos comp slash).1.flatMap f,
        (normalizeStep isStart out prefixpos comp slash).2) := by
  rw [normalizeStep, normalizeStep]
  simp only [hf.flatMap_eq_nil, hf.flatMap_eq_dot, hf.flatMap_eq_dots, ne_eq, hf.length_eq_iff h]
  split_ifs with hnil hstart hdot hdd hlen hone
  · rw [hf.flatMap_slash]
  · rfl
  · rfl
  · rfl
  · rw [List.flatMap_append, List.flatMap_append, hslash]
  · rw [hf.skipPrevPath h hlen]
  · rw [List.flatMap_append, List.flatMap_append, hslash]

theorem normalizeFrom (hf : KeepsPath f) (path : List UInt8) :
    ∀ {isStart : Bool} {out : List UInt8} {prefixpos : ℕ}, Normal out prefixpos →
      (isStart = true → out = [] ∧ prefixpos = 0) →
      Uri.normalizeFrom isStart (out.flatMap f) prefixpos (path.flatMap f) =
        ((Uri.normalizeFrom isStart out prefixpos path).1.flatMap f,
          (Uri.normalizeFrom isStart out prefixpos path).2) := by
  induction path using pathInduction with
  | nil => exact fun _ _ => rfl
  | slash comp rest hc ih =>
    intro isStart out prefixpos h hs
    rw [List.flatMap_append, List.flatMap_cons, hf.slash, List.singleton_append,
      normalizeFrom_slash _ _ _ (fun h0 => hc (hf.slash_mem_iff.mp h0)), normalizeFrom_slash _ _ _ hc,
      hf.step h hf.flatMap_slash]
    exact ih (h.step hs hc) nofun
  | last comp hne hc =>
    intro isStart out prefixpos h hs
    rw [normalizeFrom_last (fun h0 => hc (hf.slash_mem_iff.mp h0))
      (fun h0 => hne (hf.flatMap_eq_nil.mp h0)), normalizeFrom_last hc hne,
      hf.step h List.flatMap_nil]

/-- **An encoding that keeps slashes and dots commutes with normalizing.** -/
theorem normalizePath (hf : KeepsPath f) (path : List UInt8) :
    Uri.normalizePath (path.flatMap f) =
      ((Uri.normalizePath path).1.flatMap f, (Uri.normalizePath path).2) :=
  hf.normalizeFrom path .nil fun _ => ⟨rfl, rfl⟩

end KeepsPath

end Uri
end CKern
