import EdfKernel.Mm.SlabAlloc

/-!
# Calls of the slab allocator

What `kmem_cache_alloc` does, with the slabs that it makes on the way, is the same whether the
object comes from an old slab or a new one.
-/

namespace EdfKernel.Mm.Slab

open Library

namespace Slabs

variable {s s' s'' : Slabs} {base hand : Nat → Bool} {live live' : Addr → Option Owner}
  {c c' : Cachep} {slabp t a : Addr} {page i n : Nat} {fresh new : Option Addr} {alloc : Alloc}

/-! ## Sizes of a new slab -/

theorem Links.filed (links : s.Links s' c slabp page) (filed : s.Filed) (some : 0 < (s.cache c).num)
    (isNew : ∀ c', slabp ∉ s.slabs c') : s'.Filed := by
  have old : ∀ c' t, t ∈ s.slabs c' → s'.slab t = s.slab t := by
    intro c' t there
    apply links.other
    rintro rfl
    exact isNew c' there
  refine ⟨fun c' => ?_, fun c' t mem => ?_, fun c' t mem => ?_⟩
  · rw [slabs, links.full, links.notfull]
    by_cases own : c' = c
    · subst own
      rw [Function.update_self]
      apply List.perm_middle.nodup_iff.mpr
      exact List.nodup_cons.mpr ⟨isNew c', filed.nodup c'⟩
    · rw [Function.update_of_ne own]
      exact filed.nodup c'
  · rw [links.full] at mem
    rw [links.cache, old c' t (List.mem_append_left _ mem)]
    exact filed.full c' t mem
  · rw [links.cache]
    by_cases isSlab : t = slabp
    · have isCache : c' = c := by
        rcases (links.mem c' t).mp (List.mem_append_right _ mem) with before | ⟨own, _⟩
        · exact absurd (isSlab ▸ before) (isNew c')
        · exact own
      rw [isSlab, links.inuse, isCache]
      exact some
    · have before : t ∈ s.slabsNotfull c' := by
        rw [links.notfull] at mem
        by_cases own : c' = c
        · subst own
          rw [Function.update_self, List.mem_cons, or_iff_right isSlab] at mem
          exact mem
        · rwa [Function.update_of_ne own] at mem
      rw [links.other t isSlab]
      exact filed.notfull c' t before

/-- A new slab's own `slab_t`, when it lies in an object, is no client's any more. -/
theorem Links.clientTotal (links : s.Links s' c slabp page) (known : c < slabCacheNum)
    (isNew : ∀ c', slabp ∉ s.slabs c') : s'.clientTotal = s.clientTotal -
      (if (s.cache c).offSlab then ((s.cache (s.cache c).slabCachep).objsize : Int) else 0) := by
  have others : ∀ c', ((s.slabs c').map fun t => (s'.slab t).inuse) =
      (s.slabs c').map fun t => (s.slab t).inuse := by
    intro c'
    apply List.map_congr_left
    intro t there
    rw [links.other]
    rintro rfl
    exact isNew c' there
  have slabsOwn : (s'.slabs c).Perm (slabp :: s.slabs c) := by
    rw [slabs, links.full, links.notfull, Function.update_self]
    exact List.perm_middle
  rw [Int.sub_eq_add_neg]
  apply clientTotal_eq_add known
  · have inuse : s'.inuseOf c = s.inuseOf c := by
      rw [inuseOf, (slabsOwn.map _).sum_eq, List.map_cons, List.sum_cons, links.inuse, others,
        inuseOf, Nat.zero_add]
    have control : s'.controlOf c = s.controlOf c +
        (if (s.cache c).offSlab then (s.cache (s.cache c).slabCachep).objsize else 0) := by
      rw [controlOf, controlOf, links.cache, slabsOwn.length_eq, List.length_cons]
      split
      · rw [Nat.add_mul, Nat.one_mul]
      · rfl
    rw [inuse, control, links.cache]
    split <;> omega
  · intro c' ne
    have same : s'.slabs c' = s.slabs c' := by
      rw [Slabs.slabs, links.full, links.notfull, Function.update_of_ne ne, Slabs.slabs]
    rw [inuseOf, same, others, inuseOf, controlOf, controlOf, same, links.cache]
    exact ⟨rfl, rfl⟩
  · exact links.cache

/-! ## `kmem_cache_alloc` -/

/-- The slabs stay, with their objects where they are, and the clients keep theirs. -/
structure Extends (s s' : Slabs) : Prop where
  cache : s'.cache = s.cache
  npage : s'.npage = s.npage
  keeps : ∀ c, ∀ t ∈ s.slabs c, t ∈ s'.slabs c ∧ ∀ i, s'.obj c t i = s.obj c t i

theorem Extends.refl (s : Slabs) : s.Extends s :=
  ⟨rfl, rfl, fun _ _ mem => ⟨mem, fun _ => rfl⟩⟩

theorem Extends.trans (first : s.Extends s') (second : s'.Extends s'') : s.Extends s'' := by
  refine ⟨second.cache.trans first.cache, second.npage.trans first.npage, fun c t mem => ?_⟩
  obtain ⟨mem', same⟩ := first.keeps c t mem
  obtain ⟨mem'', same'⟩ := second.keeps c t mem'
  exact ⟨mem'', fun i => (same' i).trans (same i)⟩

theorem Works.extends_ (works : s.Works s' slabp) : s.Extends s' :=
  ⟨works.cache, works.npage, fun c t mem => ⟨(works.mem c t).mpr mem, works.obj c t⟩⟩

/-- The invariant holds, with the objects of `new` for clients and those that they had. -/
def Serves (s : Slabs) (base : Nat → Bool) (live : Addr → Option Owner) (hand : Nat → Bool)
    (fresh new : Option Addr) : Prop :=
  ∃ live', s.Inv base live' hand fresh ∧
    ∀ b, live' b = some .client ↔ b ∈ new ∨ live b = some .client

/-- What an allocation does: the object is new, and belongs to a slab of the cache. -/
structure Allocates (s s' : Slabs) (base : Nat → Bool) (live : Addr → Option Owner)
    (hand : Nat → Bool) (c : Cachep) (new : Option Addr) : Prop where
  extend : s.Extends s'
  filed : s'.Filed
  serves : s'.Serves base live hand none new
  object : ∀ a ∈ new, live a ≠ some .client ∧
    ∃ t ∈ s'.slabs c, ∃ i < (s.cache c).num, a = s'.obj c t i
  total : s'.clientTotal = s.clientTotal + if new.isSome then ((s.cache c).objsize : Int) else 0

/-- An object from a slab that has one. -/
theorem alloc_of_notfull {depth : Nat} {rest : List Addr}
    (inv : s.Inv base live hand fresh) (filed : s.Filed)
    (first : s.slabsNotfull c = slabp :: rest) (only : ∀ t, fresh = some t → t = slabp) :
    ∃ a s', kmemCacheAlloc (depth + 1) c s = .ok (some a, s') ∧
      s.Allocates s' base live hand c (some a) := by
  have mem : slabp ∈ s.slabsNotfull c := by
    rw [first]
    exact List.mem_cons_self
  obtain ⟨i, inBounds, isObj, isNone, works, inv', filed', total⟩ := allocOne_spec inv filed mem only
  refine ⟨(s.kmemCacheAllocOne c slabp).1, (s.kmemCacheAllocOne c slabp).2, ?_, works.extends_,
    filed', ⟨_, inv', fun b => ?_⟩, ?_, ?_⟩
  · simp only [kmemCacheAlloc, first]
  · rw [isObj, Option.mem_some_iff]
    by_cases own : b = s.obj c slabp i
    · subst own
      simp
    · rw [Function.update_of_ne own, or_iff_right (Ne.symm own)]
  · intro a isNew
    cases isNew
    rw [isObj, isNone]
    refine ⟨by rintro ⟨⟩, slabp, (works.mem c slabp).mpr (List.mem_append_right _ mem), i, inBounds,
      (works.obj c slabp i).symm⟩
  · simpa using total

theorem Serves.trans (first : ∀ b, live' b = some .client ↔ b ∈ (none : Option Addr) ∨
    live b = some .client) (second : s.Serves base live' hand fresh new) :
    s.Serves base live hand fresh new := by
  obtain ⟨live'', inv, clients⟩ := second
  refine ⟨live'', inv, fun b => ?_⟩
  rw [clients, first]
  simp

/-- What `kmem_cache_grow` does: there is a new slab in front of those that are not full, or
nothing has changed for the clients. -/
structure Grows (s s' : Slabs) (base : Nat → Bool) (live : Addr → Option Owner) (hand : Nat → Bool)
    (c : Cachep) (grown : Bool) : Prop where
  extend : s.Extends s'
  filed : s'.Filed
  serves : grown = false → s'.Serves base live hand none none
  grew : grown = true → ∃ slabp rest, s'.slabsNotfull c = slabp :: rest ∧
    s'.Serves base live hand (some slabp) none
  total : s'.clientTotal = s.clientTotal

/-- The slab is linked in, with its `slab_t` at the front of its pages or in an object. -/
theorem grows_of_links {s₁ : Slabs}
    (inv : s₁.Inv base live' (fun q => hand q || run page (s₁.cache c).pages q) none)
    (filed : s₁.Filed) (extend : s.Extends s₁)
    (clients : ∀ b, live' b = some .client ↔
      ((s₁.cache c).offSlab = true ∧ b = slabp) ∨ live b = some .client)
    (notClient : (s₁.cache c).offSlab = true → live slabp ≠ some .client)
    (total : s₁.clientTotal = s.clientTotal +
      if (s₁.cache c).offSlab then ((s₁.cache (s₁.cache c).slabCachep).objsize : Int) else 0)
    (links : s₁.Links s' c slabp page) (houses : s₁.Houses live' c slabp page)
    (known : c < slabCacheNum) (room : page + (s₁.cache c).pages ≤ s₁.npage)
    (apart : ∀ q, run page (s₁.cache c).pages q = true → hand q = false) :
    s.Grows s' base live hand c true := by
  obtain ⟨isNew, inv'⟩ := inv.link links houses known room apart
  refine ⟨extend.trans ⟨links.cache, links.npage, fun c' t mem => ?_⟩,
    links.filed filed (inv.fits c known).num.1 isNew, by rintro ⟨⟩, fun _ => ?_, ?_⟩
  · refine ⟨(links.mem c' t).mpr (.inl mem), fun i => ?_⟩
    rw [obj, obj, links.cache, links.other]
    rintro rfl
    exact isNew c' mem
  · refine ⟨slabp, s₁.slabsNotfull c, ?_, _, inv', fun b => ?_⟩
    · rw [links.notfull, Function.update_self]
    · by_cases own : (s₁.cache c).offSlab = true ∧ b = slabp
      · rw [own.2, housed_self own.1]
        simpa using notClient own.1
      · rw [housed_of_ne fun off same => own ⟨off, same⟩, clients, or_iff_right own]
        simp
  · rw [links.clientTotal known isNew, total]
    omega

/-- What `kmem_cache_slabmgmt` leaves in the `slab_t` of the pages. -/
def manage (s : Slabs) (c : Cachep) (page : Nat) (slabp : Addr) : Slabs :=
  s.modify slabp fun t =>
    { t with
      inuse := 0
      offset := (s.cache c).offset
      sMem := page2kva page + (s.cache c).offset }

theorem kmemCacheSlabmgmt_onSlab (on : (s.cache c).offSlab = false) :
    s.kmemCacheSlabmgmt alloc c page =
      .ok (some (page2kva page), s.manage c page (page2kva page)) := by
  unfold kmemCacheSlabmgmt
  rw [on]
  rfl

theorem kmemCacheSlabmgmt_none (off : (s.cache c).offSlab = true)
    (called : alloc (s.cache c).slabCachep s = .ok (none, s')) :
    s.kmemCacheSlabmgmt alloc c page = .ok (none, s') := by
  unfold kmemCacheSlabmgmt
  rw [off, if_pos rfl, called]
  rfl

theorem kmemCacheSlabmgmt_some (off : (s.cache c).offSlab = true)
    (called : alloc (s.cache c).slabCachep s = .ok (some slabp, s')) :
    s.kmemCacheSlabmgmt alloc c page = .ok (some slabp, s'.manage c page slabp) := by
  unfold kmemCacheSlabmgmt
  rw [off, if_pos rfl, called]
  rfl

/-- The rest of `kmem_cache_grow`, once the `slab_t` is there. -/
theorem kmemCacheGrow_some {s₁ s₂ : Slabs}
    (answer : s.allocPages (s.cache c).pages = (some page, s₁))
    (managed : s₁.kmemCacheSlabmgmt alloc c page = .ok (some slabp, s₂)) :
    s.kmemCacheGrow alloc c = .ok (true,
      ((s₂.setPages c slabp page (s.cache c).pages).modify slabp fun t =>
        { t with bufctl := firstBufctl (s₂.cache c).num t.bufctl, free := 0 }).addNotfull c slabp) := by
  unfold kmemCacheGrow
  simp only
  change s.allocPages (1 <<< (s.cache c).pageOrder) = _ at answer
  rw [answer]
  simp only
  rw [managed]
  rfl

theorem kmemCacheGrow_failed {s₁ s₂ s₃ : Slabs}
    (answer : s.allocPages (s.cache c).pages = (some page, s₁))
    (managed : s₁.kmemCacheSlabmgmt alloc c page = .ok (none, s₂))
    (freed : s₂.freePages page (s.cache c).pages = .ok s₃) :
    s.kmemCacheGrow alloc c = .ok (false, s₃) := by
  unfold kmemCacheGrow
  simp only
  change s.allocPages (1 <<< (s.cache c).pageOrder) = _ at answer
  change s₂.freePages page (1 <<< (s.cache c).pageOrder) = _ at freed
  rw [answer]
  simp only
  rw [managed, ok_bind]
  simp only
  rw [freed]
  rfl

theorem kmemCacheGrow_none (answer : s.allocPages (s.cache c).pages = (none, s')) :
    s.kmemCacheGrow alloc c = .ok (false, s') := by
  unfold kmemCacheGrow
  simp only
  change s.allocPages (1 <<< (s.cache c).pageOrder) = _ at answer
  rw [answer]

/-- `kmem_cache_grow`, with an allocation for the `slab_t` that does what it should. -/
theorem grow_spec (inv : s.Inv base live hand none) (filed : s.Filed) (known : c < slabCacheNum)
    (control : (s.cache c).offSlab = true → ∀ (s₁ : Slabs) (hand₁ : Nat → Bool),
      s₁.cache = s.cache → s₁.Inv base live hand₁ none → s₁.Filed →
      ∃ r s₂, alloc (s.cache c).slabCachep s₁ = .ok (r, s₂) ∧
        s₁.Allocates s₂ base live hand₁ (s.cache c).slabCachep r) :
    ∃ grown s', s.kmemCacheGrow alloc c = .ok (grown, s') ∧ s.Grows s' base live hand c grown := by
  have num := (inv.fits c known).num.1
  rcases answer : s.allocPages (s.cache c).pages with ⟨found, s₁⟩
  cases found with
  | none =>
      refine ⟨_, _, kmemCacheGrow_none answer, ?_⟩
      obtain ⟨grants, rfl⟩ := allocPages_none answer
      refine ⟨⟨rfl, rfl, fun _ _ mem => ⟨mem, fun _ => rfl⟩⟩,
        ⟨filed.nodup, filed.full, filed.notfull⟩, fun _ => ?_, by rintro ⟨⟩, rfl⟩
      exact ⟨live, inv.grants grants, by simp⟩
  | some page =>
      obtain ⟨room, isFree, rest, inv₁⟩ := allocPages_some inv answer
      have apart : ∀ q, run page (s.cache c).pages q = true → hand q = false := fun q inside =>
        ((inv.frees q).mp (isFree q inside)).2.2
      have filed₁ : s₁.Filed := by
        obtain ⟨free, grants, rfl⟩ := rest
        exact ⟨filed.nodup, filed.full, filed.notfull⟩
      have extend₁ : s.Extends s₁ := by
        obtain ⟨free, grants, rfl⟩ := rest
        exact ⟨rfl, rfl, fun _ _ mem => ⟨mem, fun _ => rfl⟩⟩
      have total₁ : s₁.clientTotal = s.clientTotal := by
        obtain ⟨free, grants, rfl⟩ := rest
        rfl
      have cache₁ := extend₁.cache
      rw [← cache₁] at room apart inv₁ num control
      rw [← extend₁.npage] at room
      cases off : (s₁.cache c).offSlab with
      | false =>
          have managed := @kmemCacheSlabmgmt_onSlab s₁ c page alloc off
          refine ⟨_, _, kmemCacheGrow_some answer managed, ?_⟩
          rw [← cache₁]
          refine grows_of_links inv₁ filed₁ extend₁ ?_ ?_ ?_ (grow_links num) ?_ known room apart
          · simp [off]
          · simp [off]
          · simpa [off] using total₁
          · exact ⟨fun _ => rfl, fun isOff => by simp [off] at isOff⟩
      | true =>
          obtain ⟨r, s₂, called, allocates⟩ := control off s₁ _ rfl inv₁ filed₁
          obtain ⟨live₂, inv₂, clients⟩ := allocates.serves
          have cache₂ := allocates.extend.cache
          have extend₂ := extend₁.trans allocates.extend
          cases r with
          | none =>
              have managed := @kmemCacheSlabmgmt_none s₁ s₂ c page alloc off called
              rw [cache₁] at inv₂ apart
              obtain ⟨s₃, freed, rest₃, inv₃⟩ := freePages_spec inv₂ apart
              refine ⟨_, _, kmemCacheGrow_failed answer managed freed, ?_⟩
              obtain ⟨free₃, rfl⟩ := rest₃
              refine ⟨extend₂.trans ⟨rfl, rfl, fun _ _ mem => ⟨mem, fun _ => rfl⟩⟩,
                ⟨allocates.filed.nodup, allocates.filed.full, allocates.filed.notfull⟩,
                fun _ => ⟨live₂, inv₃, clients⟩, by rintro ⟨⟩, ?_⟩
              have total := allocates.total.trans (Int.add_zero _)
              exact total.trans total₁
          | some slabp =>
              obtain ⟨notClient, t, there, i, inBounds, isObj⟩ := allocates.object slabp rfl
              have isClient : live₂ slabp = some .client := (clients slabp).mpr (.inl rfl)
              have managed := @kmemCacheSlabmgmt_some s₁ s₂ c slabp page alloc off called
              refine ⟨_, _, kmemCacheGrow_some answer managed, ?_⟩
              rw [← cache₂] at room apart inv₂ num off
              rw [← allocates.extend.npage] at room
              rw [← cache₁, ← cache₂]
              refine grows_of_links inv₂ allocates.filed extend₂ (fun b => ?_)
                (fun _ => notClient) ?_ (grow_links num) ⟨?_, fun _ => ?_⟩ known room apart
              · rw [clients, Option.mem_some_iff, off]
                simp [eq_comm]
              · rw [allocates.total, total₁, cache₂]
                simp [← cache₂, off]
              · simp [off]
              · rw [cache₂]
                exact ⟨isClient, t, there, i, inBounds, isObj⟩

/-- An object from a slab that has just been made. -/
theorem Grows.allocates (grows : s.Grows s' base live hand c true)
    (clients : ∀ b, live' b = some .client ↔ b ∈ (none : Option Addr) ∨ live b = some .client)
    (allocates : s'.Allocates s'' base live' hand c new) : s.Allocates s'' base live hand c new := by
  have cache := grows.extend.cache
  refine ⟨grows.extend.trans allocates.extend, allocates.filed,
    .trans clients allocates.serves, fun a isNew => ?_, ?_⟩
  · obtain ⟨notClient, object⟩ := allocates.object a isNew
    rw [← cache]
    refine ⟨fun isClient => ?_, object⟩
    exact notClient ((clients a).mpr (.inr isClient))
  · rw [allocates.total, grows.total, cache]

/-- `kmem_cache_alloc`, when the allocation for a `slab_t` does what it should. -/
theorem alloc_of_control {depth : Nat} (inv : s.Inv base live hand none) (filed : s.Filed)
    (known : c < slabCacheNum)
    (control : (s.cache c).offSlab = true → ∀ (s₁ : Slabs) (hand₁ : Nat → Bool),
      s₁.cache = s.cache → s₁.Inv base live hand₁ none → s₁.Filed →
      ∃ r s₂, kmemCacheAlloc (depth + 1) (s.cache c).slabCachep s₁ = .ok (r, s₂) ∧
        s₁.Allocates s₂ base live hand₁ (s.cache c).slabCachep r) :
    ∃ r s', kmemCacheAlloc (depth + 2) c s = .ok (r, s') ∧ s.Allocates s' base live hand c r := by
  cases first : s.slabsNotfull c with
  | cons slabp rest =>
      obtain ⟨a, s', called, allocates⟩ :=
        @alloc_of_notfull s base hand live c slabp none (depth + 1) rest inv filed first (by simp)
      exact ⟨some a, s', called, allocates⟩
  | nil =>
      obtain ⟨grown, s₁, grew, grows⟩ := grow_spec inv filed known control
      cases grown with
      | false =>
          refine ⟨none, s₁, ?_, grows.extend, grows.filed, grows.serves rfl, by simp, ?_⟩
          · rw [kmemCacheAlloc, first]
            exact bind_eq_ok_iff.mpr ⟨_, grew, rfl⟩
          · rw [grows.total]
            exact (Int.add_zero _).symm
      | true =>
          obtain ⟨slabp, rest, first', live', inv', clients⟩ := grows.grew rfl
          obtain ⟨a, s₂, called, allocates⟩ := @alloc_of_notfull s₁ base hand live' c slabp
            (some slabp) depth rest inv' grows.filed first' fun t isFresh => (Option.some.inj isFresh).symm
          refine ⟨some a, s₂, ?_, grows.allocates clients allocates⟩
          rw [kmemCacheAlloc, first]
          exact bind_eq_ok_iff.mpr ⟨_, grew, called⟩

/-- `kmem_cache_alloc`, for every cache. -/
theorem alloc_spec {depth : Nat} (inv : s.Inv base live hand none) (filed : s.Filed)
    (known : c < slabCacheNum) :
    ∃ r s', kmemCacheAlloc (depth + 3) c s = .ok (r, s') ∧ s.Allocates s' base live hand c r := by
  apply alloc_of_control inv filed known
  intro off s₁ hand₁ cache inv₁ filed₁
  obtain ⟨known', inner, _⟩ := (inv.fits c known).offSlab off
  apply alloc_of_control inv₁ filed₁ known'
  intro off'
  rw [cache, inner] at off'
  cases off'

end Slabs

end EdfKernel.Mm.Slab
