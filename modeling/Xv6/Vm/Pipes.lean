import Xv6.Vm.Calls

/-!
# The pages of pipes

A pipe holds its page as long as one of its ends belongs to an open file.
-/

namespace Xv6.Vm

open Function (update_self update_of_ne)

variable {L : Layout} {s s' : Kernel} {i : Fin NFILE} {f : Nat} {w : Bool} {E : Fault → Prop}
  {file : Fin NFILE → File}

theorem mem_pipePages :
  f ∈ pipePages file ↔ ∃ i w, file i = .pipe f w
  := by
  simp only [pipePages, Finset.mem_eraseNone, Finset.mem_image, Finset.mem_univ, true_and]
  constructor
  · rintro ⟨i, hi⟩
    cases hf : file i with
    | closed | other =>
      rw [hf] at hi
      cases hi
    | pipe g w =>
      rw [hf] at hi
      obtain rfl := Option.some.inj hi
      exact ⟨i, w, hf⟩
  · rintro ⟨i, w, hi⟩
    exact ⟨i, by rw [hi, File.page]⟩

/-! ### Files that are not pipes -/

theorem update_eq_pipe {c : File} (hi : (file i).page = none) (hc : c.page = none) (j : Fin NFILE) :
  Function.update file i c j = .pipe f w ↔ file j = .pipe f w
  := by
  by_cases hj : j = i
  · subst hj
    rw [update_self]
    constructor
    · rintro rfl
      cases hc
    · intro h
      rw [h] at hi
      cases hi
  · rw [update_of_ne hj]

/-- A file that is not a pipe changes. -/
theorem Inv.setPlain {c : File} (h : Inv L s) (hi : (s.file i).page = none) (hc : c.page = none) :
  Moves L s 0 { s with file := Function.update s.file i c }
  := by
  have hiff := fun f w => update_eq_pipe (f := f) (w := w) hi hc
  have hpages : pipePages (Function.update s.file i c) = pipePages s.file := by
    ext f
    simp only [mem_pipePages, hiff]
  apply h.setFiles
  · rw [hpages, zero_add]
    apply Trade.refl
  · simp only [hiff]
    apply h.file_inj
  · simp only [hiff]
    apply h.ends

theorem filealloc_spec (h : Inv L s) :
  Wp E filealloc
    (fun r s' => Moves L s 0 s' ∧ match r with
      | none => s' = s
      | some i => s.file i = .closed ∧ s' = { s with file := Function.update s.file i .other }) s
  := by
  rw [filealloc, wp_bind, wp_get]
  split
  · exact ⟨Moves.refl h, rfl⟩
  · rename_i i hi
    have hclosed : s.file i = .closed := by
      simpa using List.find?_some hi
    exact ⟨h.setPlain (congrArg File.page hclosed) rfl, hclosed, rfl⟩

/-! ### `pipeclose` -/

/-- The file `i` is the end `w` of the pipe `f`, and is closed. -/
theorem update_closed_eq (hi : s.file i = .pipe f w) {j : Fin NFILE} {g : Nat} {v : Bool} :
  Function.update s.file i .closed j = .pipe g v ↔ j ≠ i ∧ s.file j = .pipe g v
  := by
  by_cases hj : j = i
  · subst hj
    simp
  · simp [hj]

/-- The other ends that are open. -/
theorem exists_closed_iff (h : Inv L s) (hi : s.file i = .pipe f w) (g : Nat) (v : Bool) :
  (∃ j, Function.update s.file i .closed j = .pipe g v) ↔
    (∃ j, s.file j = .pipe g v) ∧ ¬ (g = f ∧ v = w)
  := by
  simp only [update_closed_eq hi]
  constructor
  · rintro ⟨j, hji, hj⟩
    refine ⟨⟨j, hj⟩, ?_⟩
    rintro ⟨rfl, rfl⟩
    apply hji (h.file_inj j i g v hj hi)
  · rintro ⟨⟨j, hj⟩, hne⟩
    refine ⟨j, ?_, hj⟩
    rintro rfl
    rw [hi] at hj
    obtain ⟨rfl, rfl⟩ := File.pipe.inj hj
    apply hne ⟨rfl, rfl⟩

theorem Pipe.isOpen_close (c : Pipe) (w v : Bool) :
  (c.close w).isOpen v = (c.isOpen v && (v != w))
  := by
  cases w <;> cases v <;> simp [close, isOpen]

/-- Both ends are closed when no end is open. -/
theorem Pipe.closed_iff (c : Pipe) :
  c.readopen = false ∧ c.writeopen = false ↔ ∀ v, c.isOpen v = false
  := by
  rw [Bool.forall_bool, isOpen, isOpen, if_pos rfl, if_neg Bool.false_ne_true]

/-- The ends that are open are those of open files. -/
theorem ends_close
    (h : Inv L s) (hi : s.file i = .pipe f w) (g : Nat) (v : Bool)
    (hg : ∃ v, ∃ j, s.file j = .pipe g v) :
  (Function.update s.pipe f ((s.pipe f).close w) g).isOpen v ↔
    ∃ j, Function.update s.file i .closed j = .pipe g v
  := by
  obtain ⟨v', j, hj⟩ := hg
  rw [exists_closed_iff h hi, ← h.ends j g v' hj v]
  by_cases hgf : g = f
  · subst hgf
    rw [update_self, Pipe.isOpen_close]
    simp
  · rw [update_of_ne hgf]
    simp [hgf]

/-- The page is a pipe's no more when both ends are closed. -/
theorem pipePages_close (h : Inv L s) (hi : s.file i = .pipe f w) :
  pipePages (Function.update s.file i .closed) =
    if ∀ v, ((s.pipe f).close w).isOpen v = false then (pipePages s.file).erase f
    else pipePages s.file
  := by
  have hopen : ∀ v, ((s.pipe f).close w).isOpen v ↔
      ∃ j, Function.update s.file i .closed j = .pipe f v := by
    intro v
    rw [← ends_close h hi f v ⟨w, i, hi⟩, update_self]
  ext g
  by_cases hgf : g = f
  · subst hgf
    have hmem : g ∈ pipePages s.file := mem_pipePages.mpr ⟨i, w, hi⟩
    rw [mem_pipePages, exists_comm]
    simp only [← hopen]
    split
    · rename_i hall
      simp [hall]
    · rename_i hall
      obtain ⟨v, hv⟩ := not_forall.mp hall
      rw [Bool.not_eq_false] at hv
      exact ⟨fun _ => hmem, fun _ => ⟨v, hv⟩⟩
  · have hiff : g ∈ pipePages (Function.update s.file i .closed) ↔ g ∈ pipePages s.file := by
      rw [mem_pipePages, mem_pipePages, exists_comm, exists_comm (α := Fin NFILE)]
      simp only [exists_closed_iff h hi, hgf, false_and, not_false_eq_true, and_true]
    rw [hiff]
    split
    · simp [hgf]
    · rfl

theorem wp_fileclose_other {Q : Unit → Kernel → Prop} (hi : s.file i = .other) :
  Wp E (fileclose L i) Q s ↔ Q () { s with file := Function.update s.file i .closed }
  := by
  rw [fileclose, wp_bind, wp_get, hi, wp_setFile]

/-- `fileclose` frees the page of a pipe when the file was its last end. -/
theorem fileclose_spec (h : Inv L s) (hi : s.file i ≠ .closed) :
  Wp NoFault (fileclose L i) (fun _ s' => Moves L s 0 s') s
  := by
  rw [fileclose, wp_bind, wp_get]
  split
  · contradiction
  · rename_i hother
    apply h.setPlain (congrArg File.page hother) rfl
  · rename_i f w hpipe
    have hinj : ∀ i' j g v, Function.update s.file i .closed i' = .pipe g v →
        Function.update s.file i .closed j = .pipe g v → i' = j := by
      intro i' j g v hi' hj
      apply h.file_inj i' j g v ((update_closed_eq hpipe).mp hi').2
      apply ((update_closed_eq hpipe).mp hj).2
    have hends : ∀ j g v, Function.update s.file i .closed j = .pipe g v →
        ∀ v', (Function.update s.pipe f ((s.pipe f).close w) g).isOpen v' ↔
          ∃ j, Function.update s.file i .closed j = .pipe g v' := by
      intro j g v hj v'
      apply ends_close h hpipe g v' ⟨v, j, ((update_closed_eq hpipe).mp hj).2⟩
    have hpages := pipePages_close h hpipe
    simp only [wp_bind, wp_setFile, pipeclose, wp_get, wp_setPipe, Pipe.closed_iff]
    split
    · rename_i hclosed
      rw [if_pos hclosed] at hpages
      have hmem : f ∈ pipePages s.file := mem_pipePages.mpr ⟨i, w, hpipe⟩
      have hcons : (pipePages s.file).val = f ::ₘ ((pipePages s.file).erase f).val := by
        rw [Finset.erase_val, Multiset.cons_erase hmem]
      have hpool := h.pool.of_sum .pipes
      rw [holding, hcons] at hpool
      rw [wp_onMemory]
      apply wp_kfree_of_mem hpool
      intro htrade
      apply h.setFiles _ hinj hends
      rw [zero_add, hpages, hcons]
      apply htrade
    · rename_i hopen
      rw [if_neg hopen] at hpages
      apply h.setFiles _ hinj hends
      rw [zero_add, hpages]
      apply Trade.refl

/-! ### `pipealloc` -/

theorem page_ne_pipe {c : File} (h : c.page = none) :
  c ≠ .pipe f w
  := by
  rintro rfl
  cases h

/-- Two files become the ends of a pipe in a new page. -/
theorem Inv.newPipe
    {f0 f1 : Fin NFILE} {l : List Nat} (h : Inv L s) (h0 : (s.file f0).page = none)
    (h1 : (s.file f1).page = none) (hne : f0 ≠ f1) (hf : s.mem.freelist = f :: l) :
  Moves L s 0
    { s with
      mem := { s.mem with freelist := l }
      pipe := Function.update s.pipe f { readopen := true, writeopen := true }
      file := Function.update (Function.update s.file f0 (.pipe f false)) f1 (.pipe f true) }
  := by
  have hnew : ∀ i v, s.file i ≠ .pipe f v := by
    intro i v hi
    apply (h.pool.of_sum .pipes).notMem_freelist (f := f)
    · rw [holding, Finset.mem_val, mem_pipePages]
      exact ⟨i, v, hi⟩
    · rw [hf]
      apply List.mem_cons_self
  have hiff : ∀ i g v,
      Function.update (Function.update s.file f0 (.pipe f false)) f1 (.pipe f true) i = .pipe g v ↔
        s.file i = .pipe g v ∨ g = f ∧ (v = false ∧ i = f0 ∨ v = true ∧ i = f1) := by
    intro i g v
    rcases eq_or_ne i f1 with rfl | hi1
    · rw [update_self, File.pipe.injEq]
      simp [page_ne_pipe h1, hne.symm, eq_comm]
    · rw [update_of_ne hi1]
      rcases eq_or_ne i f0 with rfl | hi0
      · rw [update_self, File.pipe.injEq]
        simp [page_ne_pipe h0, hne, eq_comm]
      · rw [update_of_ne hi0]
        simp [hi0, hi1]
  generalize Function.update (Function.update s.file f0 (.pipe f false)) f1 (.pipe f true) =
    file at hiff
  apply h.setFiles
  · have hinsert : pipePages file = insert f (pipePages s.file) := by
      ext g
      simp only [mem_pipePages, Finset.mem_insert, hiff]
      constructor
      · rintro ⟨i, v, hi | ⟨rfl, -⟩⟩
        · exact .inr ⟨i, v, hi⟩
        · exact .inl rfl
      · rintro (rfl | ⟨i, v, hi⟩)
        · exact ⟨f0, false, .inr ⟨rfl, .inl ⟨rfl, rfl⟩⟩⟩
        · exact ⟨i, v, .inl hi⟩
    have hnot : f ∉ pipePages s.file := by
      rw [mem_pipePages]
      rintro ⟨i, v, hi⟩
      apply hnew i v hi
    rw [hinsert, Finset.insert_val_of_notMem hnot, zero_add, ← Multiset.singleton_add]
    have := (Trade.kalloc hf).frame (pipePages s.file).val
    rw [zero_add] at this
    apply this
  · intro i j g v hi hj
    rw [hiff] at hi hj
    rcases hi with hi | ⟨rfl, hi⟩
    · rcases hj with hj | ⟨rfl, -⟩
      · apply h.file_inj i j g v hi hj
      · exact absurd hi (hnew i v)
    · rcases hj with hj | ⟨-, hj⟩
      · exact absurd hj (hnew j v)
      · rcases hi with ⟨rfl, rfl⟩ | ⟨rfl, rfl⟩
        · simpa [eq_comm] using hj
        · simpa [eq_comm] using hj
  · intro i g v hi v'
    simp only [hiff] at hi ⊢
    by_cases hgf : g = f
    · subst hgf
      rw [update_self]
      cases v' with
      | false | true => simp [Pipe.isOpen]
    · rw [update_of_ne hgf]
      simp only [hgf, false_and, or_false] at hi ⊢
      apply h.ends i g v hi

theorem pipealloc_spec (h : Inv L s) :
  Wp NoFault (pipealloc L) (fun _ s' => Moves L s 0 s') s
  := by
  rw [pipealloc]
  apply (filealloc_spec h).bind
  rintro (_ | f0) s₁ ⟨hm₁, hs₁⟩
  · apply hm₁
  · have h0 : s₁.file f0 = .other := by
      rw [hs₁.2]
      apply update_self
    apply (filealloc_spec hm₁.inv).bind
    rintro (_ | f1) s₂ ⟨hm₂, hs₂⟩
    · obtain rfl := hs₂
      apply (fileclose_spec hm₂.inv _).bind
      · intro _ s₃ hm₃
        apply hm₁.trans hm₃
      · rw [h0]
        nofun
    · obtain ⟨h1, hs₂⟩ := hs₂
      have hne : f0 ≠ f1 := by
        rintro rfl
        rw [h0] at h1
        cases h1
      have h0' : s₂.file f0 = .other := by
        rw [hs₂]
        exact (update_of_ne hne _ _).trans h0
      have h1' : s₂.file f1 = .other := by
        rw [hs₂]
        apply update_self
      rw [wp_bind, wp_onMemory, wp_kalloc]
      constructor
      · intro _
        have hm₃ := hm₂.inv.setPlain (i := f0) (c := .closed) (congrArg File.page h0') rfl
        have h1'' : Function.update s₂.file f0 .closed f1 = .other :=
          (update_of_ne hne.symm _ _).trans h1'
        have hm₄ := hm₃.inv.setPlain (i := f1) (c := .closed) (congrArg File.page h1'') rfl
        rw [wp_bind, wp_fileclose_other h0', wp_bind, wp_fileclose_other h1'']
        apply ((hm₁.trans hm₂).trans hm₃).trans hm₄
      · intro f l hf
        have := hm₂.inv.newPipe (congrArg File.page h0') (congrArg File.page h1') hne hf
        apply (hm₁.trans hm₂).trans this

end Xv6.Vm
