import EdfKernel.Mm.UserAccess

/-!
# Changing the set of areas

What creating, trimming, linking in and taking out an area does to the addresses of an address
space: which of them lie in an area, where that area starts and which flags it has.
-/

namespace EdfKernel.Mm

open Library Library.Intervals

namespace Vm

variable {vm vm' : Vm} {mm mm' : MmPtr} {v w : VmaPtr} {addr start stop lo : Nat}
  {flags : BitVec 32} {before after : List VmaPtr}

/-! ## Areas outside the set -/

/-- The address is in an area that starts at `lo` and has the flags. -/
def Lies (vm : Vm) (mm : MmPtr) (addr lo : Nat) (flags : BitVec 32) : Prop :=
  ∃ v ∈ vm.areas mm, vm.lo v = lo ∧ lo ≤ addr ∧ addr < vm.hi v ∧ (vm.vma v).vmFlags = flags

/-- An area that is in use, but not in the set, and overlaps none of the set. -/
structure Detached (vm : Vm) (mm : MmPtr) (v : VmaPtr) : Prop where
  new : v ∉ vm.areas mm
  used : vm.vmaUsed v = true
  range : UserRange (vm.lo v) (vm.hi v)
  apart : ∀ w ∈ vm.areas mm, vm.hi w ≤ vm.lo v ∨ vm.hi v ≤ vm.lo w

/-- The limits of the heap and the other address spaces are unchanged. -/
structure Keeps (vm vm' : Vm) (mm : MmPtr) : Prop where
  brk : (vm'.mm mm).brk = (vm.mm mm).brk
  brkStart : (vm'.mm mm).brkStart = (vm.mm mm).brkStart
  other : ∀ mm', mm' ≠ mm → vm'.mm mm' = vm.mm mm'

theorem Keeps.refl (vm : Vm) (mm : MmPtr) : vm.Keeps vm mm :=
  ⟨rfl, rfl, fun _ _ => rfl⟩

theorem Keeps.of_eq (same : vm'.mm = vm.mm) : vm.Keeps vm' mm := by
  refine ⟨?_, ?_, fun mm' _ => ?_⟩ <;> rw [same]

theorem Keeps.trans {vm'' : Vm} (first : vm.Keeps vm' mm) (second : vm'.Keeps vm'' mm) :
    vm.Keeps vm'' mm :=
  ⟨second.brk.trans first.brk, second.brkStart.trans first.brkStart,
    fun mm' other => (second.other mm' other).trans (first.other mm' other)⟩

theorem SetsCache.keeps (sets : vm.SetsCache mm vm') : vm.Keeps vm' mm := by
  obtain ⟨cache, _, rfl⟩ := sets
  refine ⟨?_, ?_, fun mm' other => modifyMm_mm_of_ne _ _ other⟩
  · rw [modifyMm_mm_self]
  · rw [modifyMm_mm_self]

theorem Links.keeps (links : vm.Links mm v vm' before after) : vm.Keeps vm' mm := by
  refine ⟨?_, ?_, fun mm' other => links.mm_of_ne other⟩
  · obtain ⟨tree, grants, _, rfl⟩ := links.eq
    rw [linked_mm]
  · obtain ⟨tree, grants, _, rfl⟩ := links.eq
    rw [linked_mm]

/-- A detached area that is linked in: the set gets its addresses. -/
theorem Links.lies_iff (links : vm.Links mm v vm' before after) :
    vm'.Lies mm addr lo flags ↔ vm.Lies mm addr lo flags ∨
      (vm.lo v = lo ∧ lo ≤ addr ∧ addr < vm.hi v ∧ (vm.vma v).vmFlags = flags) := by
  have sameFlags : ∀ w, (vm'.vma w).vmFlags = (vm.vma w).vmFlags := by
    intro w
    by_cases own : w = v
    · subst own
      rw [links.vma_self]
    · rw [links.vma_of_ne own]
  unfold Lies
  simp only [links.areas, links.list, links.bounds, sameFlags, List.mem_append, List.mem_cons]
  constructor
  · rintro ⟨w, inBefore | rfl | inAfter, rest⟩
    · exact .inl ⟨w, .inl inBefore, rest⟩
    · exact .inr rest
    · exact .inl ⟨w, .inr inAfter, rest⟩
  · rintro (⟨w, inBefore | inAfter, rest⟩ | rest)
    · exact ⟨w, .inl inBefore, rest⟩
    · exact ⟨w, .inr (.inr inAfter), rest⟩
    · exact ⟨v, .inr (.inl rfl), rest⟩

/-- `insert_vma_struct` at a detached area. -/
theorem Detached.insert (set : VmaSet vm mm) (detached : vm.Detached mm v)
    (inserted : vm.insertVmaStruct mm v = .ok vm') :
    VmaSet vm' mm ∧ ∃ before after, vm.Links mm v vm' before after := by
  obtain ⟨before, after, links⟩ :=
    (set.insertVmaStruct detached.new detached.range.2.1 detached.apart).2 vm' inserted
  exact ⟨links.vmaSet set detached.used detached.range, before, after, links⟩

theorem lies_congr (areas : vm'.areas mm = vm.areas mm)
    (vma : ∀ w ∈ vm.areas mm, vm'.vma w = vm.vma w) :
    vm'.Lies mm addr lo flags ↔ vm.Lies mm addr lo flags := by
  unfold Lies
  rw [areas]
  refine exists_congr fun w => and_congr_right fun mem => ?_
  rw [Vm.lo, Vm.lo, Vm.hi, Vm.hi, vma w mem]

/-- What `vma_resize` does to an area. -/
structure Resizes (vm vm' : Vm) (v : VmaPtr) (start stop : Nat) : Prop where
  mm : vm'.mm = vm.mm
  used : vm'.vmaUsed = vm.vmaUsed
  other : ∀ w, w ≠ v → vm'.vma w = vm.vma w
  lo : vm'.lo v = start
  hi : vm'.hi v = stop
  flags : (vm'.vma v).vmFlags = (vm.vma v).vmFlags
  owner : (vm'.vma v).vmMm = (vm.vma v).vmMm
  aligned : start % pgSize = 0 ∧ stop % pgSize = 0
  inside : vm.lo v ≤ start ∧ start < stop ∧ stop ≤ vm.hi v

theorem vmaResize_resizes (done : vm.vmaResize v start stop = .ok vm') :
    vm.Resizes vm' v start stop := by
  unfold vmaResize at done
  split at done
  · rename_i ok
    cases done
    refine ⟨rfl, rfl, fun w other => modifyVma_vma_of_ne _ _ other, ?_, ?_, ?_, ?_,
      ⟨ok.1, ok.2.1⟩, ok.2.2⟩
    · rw [Vm.lo, modifyVma_vma_self]
    · rw [Vm.hi, modifyVma_vma_self]
    · rw [modifyVma_vma_self]
    · rw [modifyVma_vma_self]
  · cases done

/-- A detached area stays detached when it is trimmed. -/
theorem Detached.resize (set : VmaSet vm mm) (detached : vm.Detached mm v)
    (resizes : vm.Resizes vm' v start stop) : VmaSet vm' mm ∧ vm'.Detached mm v := by
  have areas : vm'.areas mm = vm.areas mm := by rw [Vm.areas, resizes.mm]; rfl
  have ne : ∀ w ∈ vm.areas mm, w ≠ v := fun w mem own => detached.new (own ▸ mem)
  obtain ⟨low, less, high⟩ := resizes.inside
  have range := detached.range
  constructor
  · refine set.congr set.cache (by rw [resizes.mm]) fun w mem => ?_
    rw [resizes.used]
    exact ⟨resizes.other w (ne w mem), (set.owned w mem).1⟩
  · constructor
    · rw [areas]
      exact detached.new
    · rw [resizes.used]
      exact detached.used
    · rw [resizes.lo, resizes.hi]
      exact ⟨range.1.trans low, less, high.trans range.2.2.1, resizes.aligned⟩
    · intro w mem
      rw [areas] at mem
      rw [resizes.lo, resizes.hi, Vm.lo, Vm.hi, resizes.other w (ne w mem)]
      rcases detached.apart w mem with le | le
      · exact .inl (le.trans low)
      · exact .inr (high.trans le)

/-- An area of the set is trimmed where it is. -/
theorem VmaSet.shrink (set : VmaSet vm mm) (resizes : vm.Resizes vm' v start stop)
    (mem : v ∈ vm.areas mm) : VmaSet vm' mm := by
  have areas : vm'.areas mm = vm.areas mm := by rw [Vm.areas, resizes.mm]; rfl
  obtain ⟨low, less, high⟩ := resizes.inside
  have same : ∀ w, w ≠ v → vm'.lo w = vm.lo w ∧ vm'.hi w = vm.hi w := by
    intro w other
    rw [Vm.lo, Vm.lo, Vm.hi, Vm.hi, resizes.other w other]
    exact ⟨rfl, rfl⟩
  constructor
  · rw [areas]
    refine set.ordered.shrink (fun w memW => ?_) fun w memW => ?_
    · by_cases own : w = v
      · rw [own, resizes.lo, resizes.hi]
        exact less
      · rw [(same w own).1, (same w own).2]
        exact set.ordered.nonempty w memW
    · by_cases own : w = v
      · rw [own, resizes.lo, resizes.hi]
        exact ⟨low, high⟩
      · rw [(same w own).1, (same w own).2]
        exact ⟨le_rfl, le_rfl⟩
  · intro w memW
    rw [areas] at memW
    by_cases own : w = v
    · have range := set.range v mem
      rw [own, resizes.lo, resizes.hi]
      exact ⟨range.1.trans low, less, high.trans range.2.2.1, resizes.aligned⟩
    · rw [(same w own).1, (same w own).2]
      exact set.range w memW
  · intro w memW
    rw [areas] at memW
    rw [resizes.used]
    refine ⟨(set.owned w memW).1, ?_⟩
    by_cases own : w = v
    · rw [own, resizes.owner]
      exact (set.owned v mem).2
    · rw [resizes.other w own]
      exact (set.owned w memW).2
  · rw [areas, resizes.mm]
    exact set.count
  · rw [areas, resizes.mm]
    exact set.tree
  · rw [areas, resizes.mm]
    exact set.cache

/-- Trimming a detached area and linking it in. -/
theorem Detached.trim (set : VmaSet vm mm) (detached : vm.Detached mm v) {vm'' : Vm}
    (resized : vm.vmaResize v start stop = .ok vm')
    (inserted : vm'.insertVmaStruct mm v = .ok vm'') :
    VmaSet vm'' mm ∧ vm.Keeps vm'' mm ∧ vm''.vmaUsed = vm.vmaUsed ∧
      (∀ w, w ≠ v → vm''.vma w = vm.vma w) ∧ vm.Resizes vm' v start stop ∧
      (∀ w, vm''.lo w = vm'.lo w ∧ vm''.hi w = vm'.hi w) ∧
      (∀ w ∈ vm''.areas mm, w ∈ vm.areas mm ∨ w = v) ∧
      ∀ addr lo flags, vm''.Lies mm addr lo flags ↔ vm.Lies mm addr lo flags ∨
        (start = lo ∧ start ≤ addr ∧ addr < stop ∧ (vm.vma v).vmFlags = flags) := by
  have resizes := vmaResize_resizes resized
  obtain ⟨set', detached'⟩ := detached.resize set resizes
  obtain ⟨set'', before, after, links⟩ := detached'.insert set' inserted
  have areas : vm'.areas mm = vm.areas mm := by rw [Vm.areas, resizes.mm]; rfl
  refine ⟨set'', (Keeps.of_eq resizes.mm).trans links.keeps, links.used.1.trans resizes.used,
    fun w other => (links.vma_of_ne other).trans (resizes.other w other), resizes,
    links.bounds, ?_, fun addr lo flags => ?_⟩
  · intro w mem
    rw [links.areas, List.mem_append, List.mem_cons] at mem
    rw [← areas, links.list, List.mem_append]
    tauto
  · rw [links.lies_iff, resizes.lo, resizes.hi, resizes.flags,
      lies_congr areas fun w mem => resizes.other w fun own => detached.new (own ▸ mem)]
    refine or_congr_right (and_congr_right fun same => ?_)
    rw [same]

/-! ## vma_create -/

/-- What `vma_create` does when there is memory for an area. -/
structure Creates (vm vm' : Vm) (v : VmaPtr) (start stop : Nat) (flags : BitVec 32) : Prop where
  fresh : vm.vmaUsed v = false
  mm : vm'.mm = vm.mm
  used : vm'.vmaUsed = Function.update vm.vmaUsed v true
  other : ∀ w, w ≠ v → vm'.vma w = vm.vma w
  lo : vm'.lo v = start
  hi : vm'.hi v = stop
  flags : (vm'.vma v).vmFlags = flags

theorem vmaCreate_creates (created : vm.vmaCreate start stop flags = (some v, vm')) :
    vm.Creates vm' v start stop flags := by
  unfold vmaCreate at created
  rcases answer : vm.kmalloc vm.vmaUsed with ⟨found, vm₁⟩
  obtain ⟨grants, rfl, fresh⟩ := kmalloc_spec answer
  rw [answer] at created
  cases found with
  | none => cases created
  | some w =>
      cases created
      refine ⟨fresh v rfl, rfl, rfl, fun w other => Function.update_of_ne other .., ?_, ?_, ?_⟩
      · simp [Vm.lo]
      · simp [Vm.hi]
      · simp

theorem vmaCreate_none (created : vm.vmaCreate start stop flags = (none, vm')) :
    ∃ grants, vm' = { vm with grants := grants } := by
  unfold vmaCreate at created
  rcases answer : vm.kmalloc vm.vmaUsed with ⟨found, vm₁⟩
  obtain ⟨grants, rest, _⟩ := kmalloc_spec answer
  rw [answer] at created
  cases found with
  | none =>
      cases created
      exact ⟨grants, rest⟩
  | some w => cases created

theorem kmalloc_fst (same : vm.grants = vm'.grants) (used : Nat → Bool) :
    (vm.kmalloc used).1 = (vm'.kmalloc used).1 := by
  unfold kmalloc
  rw [same]
  rcases vm'.grants with _ | ⟨_ | address, rest⟩ <;> rfl

theorem SetsCache.kmalloc (sets : vm.SetsCache mm vm') :
    (vm'.kmalloc vm'.vmaUsed).1 = (vm.kmalloc vm.vmaUsed).1 := by
  obtain ⟨cache, _, rfl⟩ := sets
  exact @kmalloc_fst (vm.modifyMm mm fun s => { s with mmapCache := cache }) vm rfl vm.vmaUsed

theorem vmaCreate_eq_none_iff (vm : Vm) (start stop : Nat) (flags : BitVec 32) :
    (vm.vmaCreate start stop flags).1 = none ↔ (vm.kmalloc vm.vmaUsed).1 = none := by
  unfold vmaCreate
  rcases vm.kmalloc vm.vmaUsed with ⟨found, vm'⟩
  cases found <;> simp

/-- A new area leaves the set as it is. -/
theorem Creates.vmaSet (creates : vm.Creates vm' v start stop flags) (set : VmaSet vm mm) :
    VmaSet vm' mm ∧ v ∉ vm.areas mm ∧ vm'.areas mm = vm.areas mm ∧
      ∀ w ∈ vm.areas mm, vm'.vma w = vm.vma w := by
  have new : v ∉ vm.areas mm := fun mem => by
    have used := (set.owned v mem).1
    rw [creates.fresh] at used
    cases used
  have vma : ∀ w ∈ vm.areas mm, vm'.vma w = vm.vma w :=
    fun w mem => creates.other w fun own => new (own ▸ mem)
  refine ⟨set.congr set.cache (by rw [creates.mm]) fun w mem => ⟨vma w mem, ?_⟩, new, ?_, vma⟩
  · have other : w ≠ v := fun own => new (own ▸ mem)
    rw [creates.used, Function.update_of_ne other]
    exact (set.owned w mem).1
  · rw [Vm.areas, creates.mm]
    rfl

/-- An area is cut in two: it keeps the addresses from `stop` on, and a new area gets those below
`start`. -/
theorem VmaSet.split {vm₁ vm₂ vm₃ : Vm} {new : VmaPtr} (set : VmaSet vm mm)
    (mem : v ∈ vm.areas mm)
    (creates : vm.Creates vm₁ new (vm.lo v) start (vm.vma v).vmFlags)
    (resizes : vm₁.Resizes vm₂ v stop (vm.hi v)) (inserted : vm₂.insertVmaStruct mm new = .ok vm₃)
    (low : vm.lo v < start) (less : start < stop) (aligned : start % pgSize = 0) :
    VmaSet vm₃ mm ∧ vm.Keeps vm₃ mm ∧ ∀ addr lo flags, vm₃.Lies mm addr lo flags ↔
      (∃ w ∈ vm.areas mm, w ≠ v ∧ vm.lo w = lo ∧ lo ≤ addr ∧ addr < vm.hi w ∧
        (vm.vma w).vmFlags = flags) ∨
      (vm.vma v).vmFlags = flags ∧ (stop = lo ∧ lo ≤ addr ∧ addr < vm.hi v ∨
        vm.lo v = lo ∧ lo ≤ addr ∧ addr < start) := by
  obtain ⟨set₁, fresh, areas₁, vma₁⟩ := creates.vmaSet set
  have ne : new ≠ v := fun own => fresh (own ▸ mem)
  have set₂ := set₁.shrink resizes (by rw [areas₁]; exact mem)
  have areas₂ : vm₂.areas mm = vm.areas mm := by
    rw [← areas₁, Vm.areas, resizes.mm]
    rfl
  have same : ∀ w ∈ vm.areas mm, w ≠ v → vm₂.vma w = vm.vma w :=
    fun w memW other => (resizes.other w other).trans (vma₁ w memW)
  have newVma : vm₂.vma new = vm₁.vma new := resizes.other new ne
  have newLo : vm₂.lo new = vm.lo v := by
    rw [Vm.lo, newVma]
    exact creates.lo
  have newHi : vm₂.hi new = start := by
    rw [Vm.hi, newVma]
    exact creates.hi
  have detached : vm₂.Detached mm new := by
    have range := set.range v mem
    obtain ⟨_, atop, _⟩ := resizes.inside
    constructor
    · rw [areas₂]
      exact fresh
    · rw [resizes.used, creates.used, Function.update_self]
    · rw [newLo, newHi]
      exact ⟨range.1, low, (less.trans atop).le.trans range.2.2.1, range.2.2.2.1, aligned⟩
    · intro w memW
      rw [areas₂] at memW
      rw [newLo, newHi]
      by_cases own : w = v
      · rw [own, resizes.lo]
        exact .inr less.le
      · have sameLo : vm₂.lo w = vm.lo w := by rw [Vm.lo, Vm.lo, same w memW own]
        have sameHi : vm₂.hi w = vm.hi w := by rw [Vm.hi, Vm.hi, same w memW own]
        rw [sameLo, sameHi]
        rcases set.ordered.disjoint memW mem with isV | le | le
        · exact absurd isV own
        · exact .inl le
        · exact .inr ((less.trans atop).le.trans le)
  obtain ⟨set₃, before, after, links⟩ := detached.insert set₂ inserted
  refine ⟨set₃, ((Keeps.of_eq creates.mm).trans (.of_eq resizes.mm)).trans links.keeps, ?_⟩
  intro addr lo flags
  rw [links.lies_iff, newLo, newHi, newVma, creates.flags]
  unfold Lies
  rw [areas₂]
  constructor
  · rintro (⟨w, memW, rfl, from_, upTo, isFlags⟩ | ⟨isLo, from_, upTo, isFlags⟩)
    · by_cases own : w = v
      · subst own
        rw [resizes.hi] at upTo
        rw [resizes.lo] at from_ ⊢
        rw [resizes.flags, vma₁ w mem] at isFlags
        exact .inr ⟨isFlags, .inl ⟨rfl, from_, upTo⟩⟩
      · rw [Vm.lo, same w memW own] at from_ ⊢
        rw [Vm.hi, same w memW own] at upTo
        rw [same w memW own] at isFlags
        exact .inl ⟨w, memW, own, rfl, from_, upTo, isFlags⟩
    · exact .inr ⟨isFlags, .inr ⟨isLo, from_, upTo⟩⟩
  · rintro (⟨w, memW, own, isLo, from_, upTo, isFlags⟩ | ⟨isFlags, piece | piece⟩)
    · refine .inl ⟨w, memW, ?_, from_, ?_, ?_⟩
      · rw [Vm.lo, same w memW own]
        exact isLo
      · rw [Vm.hi, same w memW own]
        exact upTo
      · rw [same w memW own]
        exact isFlags
    · refine .inl ⟨v, mem, ?_, piece.2.1, ?_, ?_⟩
      · rw [resizes.lo, piece.1]
      · rw [resizes.hi]
        exact piece.2.2
      · rw [resizes.flags, vma₁ v mem]
        exact isFlags
    · exact .inr ⟨piece.1, piece.2.1, piece.2.2, isFlags⟩

/-! ## The first loop -/

theorem removeVmaStruct_keeps (removed : vm.removeVmaStruct mm v = .ok vm') :
    vm.Keeps vm' mm := by
  unfold removeVmaStruct at removed
  split at removed
  · obtain ⟨tree, _, rest⟩ := bind_eq_ok_iff.mp removed
    cases rest
    refine ⟨?_, ?_, fun mm' other => modifyMm_mm_of_ne _ _ other⟩
    · rw [modifyMm_mm_self]
    · rw [modifyMm_mm_self]
  · cases removed

theorem Unlinks.fields (unlinks : vm.Unlinks mm v vm') :
    vm'.vma = vm.vma ∧ vm'.vmaUsed = vm.vmaUsed := by
  have vma : ({ vm' with mm := vm.mm } : Vm).vma = vm.vma := congrArg Vm.vma unlinks.rest
  have used : ({ vm' with mm := vm.mm } : Vm).vmaUsed = vm.vmaUsed :=
    congrArg Vm.vmaUsed unlinks.rest
  exact ⟨vma, used⟩

/-- The first loop takes out the areas from one of the list on that start below a bound. -/
theorem takeOut_spec {fuel : Nat} {rest freeList : List VmaPtr} {result : List VmaPtr × Vm}
    (set : VmaSet vm mm) (list : vm.areas mm = before ++ v :: rest) (enough : rest.length < fuel)
    (done : takeOut mm stop fuel v freeList vm = .ok result) :
    ∃ run after, v :: rest = run ++ after ∧ result.1 = run.reverse ++ freeList ∧
      (∀ w ∈ run, vm.lo w < stop) ∧ (∀ w ∈ after, stop ≤ vm.lo w) ∧ VmaSet result.2 mm ∧
      result.2.areas mm = before ++ after ∧ result.2.vma = vm.vma ∧
      result.2.vmaUsed = vm.vmaUsed ∧ vm.Keeps result.2 mm := by
  induction fuel generalizing v rest freeList vm with
  | zero => omega
  | succ fuel ih =>
      have nodup : (before ++ [v] ++ rest).Nodup := by
        rw [List.append_assoc, List.singleton_append, ← list]
        exact set.ordered.nodup
      unfold takeOut at done
      split at done
      · rename_i low
        simp only at done
        obtain ⟨vm₁, removed, done⟩ := bind_eq_ok_iff.mp done
        have mem : v ∈ vm.areas mm := by
          rw [list]
          exact List.mem_append_right _ List.mem_cons_self
        obtain ⟨unlinks, set₁⟩ := (set.removeVmaStruct mem).2 vm₁ removed
        have keeps := removeVmaStruct_keeps removed
        obtain ⟨vma, used⟩ := unlinks.fields
        have notBefore : v ∉ before := by
          intro inBefore
          rw [List.append_assoc, List.nodup_append] at nodup
          exact nodup.2.2 v inBefore v List.mem_cons_self rfl
        have areas : vm₁.areas mm = before ++ rest := by
          rw [unlinks.areas, list, List.erase_append_right _ notBefore, List.erase_cons_head]
        have next : listNext (some v) (vm.mm mm).mmapList = rest.head? := by
          have split := listNext_split nodup
          rw [List.getLast?_append, List.getLast?_singleton, Option.some_or, List.append_assoc,
            List.singleton_append, ← list] at split
          exact split
        rw [next] at done
        cases rest with
        | nil =>
            cases done
            exact ⟨[v], [], rfl, rfl, by simpa [Vm.lo] using low, by simp, set₁, areas, vma, used, keeps⟩
        | cons w rest =>
            obtain ⟨run, after, split, freed, lows, highs, set₂, areas₂, vma₂, used₂, keeps₂⟩ :=
              ih set₁ areas (by simp only [List.length_cons] at enough; omega) done
            have lo : vm₁.lo = vm.lo := by
              funext x
              rw [Vm.lo, Vm.lo, vma]
            rw [lo] at lows highs
            refine ⟨v :: run, after, by rw [split]; rfl, by rw [freed]; simp, ?_, highs, set₂,
              areas₂, vma₂.trans vma, used₂.trans used, keeps.trans keeps₂⟩
            intro x memX
            rcases List.mem_cons.mp memX with rfl | inRun
            · exact low
            · exact lows x inRun
      · rename_i high
        cases done
        refine ⟨[], v :: rest, rfl, rfl, by simp, ?_, set, list, rfl, rfl, .refl _ _⟩
        have starts := set.ordered.starts
        rw [list, List.pairwise_append, List.pairwise_cons] at starts
        intro w memW
        rcases List.mem_cons.mp memW with rfl | inRest
        · exact not_lt.mp high
        · exact (not_lt.mp high).trans (starts.2.1.1 w inRest).le

end Vm

end EdfKernel.Mm
