import Mathlib.Logic.Function.Basic
import Mathlib.Data.List.Basic

/-! A write-back cache with pins over a backing store. A page that is not resident counts
as a clean page whose cached bytes are the stored ones, so residency itself disappears:
evicting an unpinned page writes it back if it is dirty and re-reads it otherwise. A clean
page whose bytes differ from the store is therefore the one thing that loses an update. -/
namespace Rucbase.Lib

@[ext] structure PageCache (ι δ : Type) where
  view : ι → δ
  disk : ι → δ
  pin : ι → Nat
  dirty : ι → Bool

namespace PageCache

variable {ι δ : Type} [DecidableEq ι]

def evict (p : ι) (c : PageCache ι δ) : PageCache ι δ :=
  if c.pin p = 0 then
    if c.dirty p then
      { c with disk := Function.update c.disk p (c.view p), dirty := Function.update c.dirty p false }
    else { c with view := Function.update c.view p (c.disk p) }
  else c

def fetch (p : ι) (c : PageCache ι δ) : PageCache ι δ :=
  { c with pin := Function.update c.pin p (c.pin p + 1) }

def write (p : ι) (d : δ) (c : PageCache ι δ) : PageCache ι δ :=
  { c with view := Function.update c.view p d }

/-- Dropping one pin; the page is marked if the client says so. -/
def release (p : ι) (mark : Bool) (c : PageCache ι δ) : PageCache ι δ :=
  { c with pin := Function.update c.pin p (c.pin p - 1)
           dirty := Function.update c.dirty p (mark || c.dirty p) }

/-- Writing the page to the store, pinned or not. -/
def flush (p : ι) (c : PageCache ι δ) : PageCache ι δ :=
  { c with disk := Function.update c.disk p (c.view p), dirty := Function.update c.dirty p false }

/-- A new page with its first pin. -/
def create (p : ι) (d : δ) (c : PageCache ι δ) : PageCache ι δ :=
  { c with view := Function.update c.view p d, pin := Function.update c.pin p 1 }

def evictAll (pages : List ι) (c : PageCache ι δ) : PageCache ι δ :=
  pages.foldl (fun c p => c.evict p) c

def flushAll (pages : List ι) (c : PageCache ι δ) : PageCache ι δ :=
  pages.foldl (fun c p => c.flush p) c

/-- Nothing is lost if the page leaves the cache now. -/
def Synced (c : PageCache ι δ) (p : ι) : Prop := c.dirty p = true ∨ c.view p = c.disk p

theorem evict_view (c : PageCache ι δ) (p : ι) (synced : c.pin p = 0 → c.Synced p) :
    (c.evict p).view = c.view := by
  unfold evict
  split
  · rename_i free
    split
    · rfl
    · rename_i clean
      have same := (synced free).resolve_left clean
      simp [← same]
  · rfl

@[simp] theorem evict_pin (c : PageCache ι δ) (p : ι) : (c.evict p).pin = c.pin := by
  unfold evict; split <;> [split <;> rfl; rfl]

theorem evict_synced (c : PageCache ι δ) (p q : ι) (synced : c.Synced q) : (c.evict p).Synced q := by
  unfold evict
  split
  · split
    · by_cases same : q = p
      · subst q; exact .inr (by simp)
      · simpa [Synced,same] using synced
    · by_cases same : q = p
      · subst q; exact .inr (by simp)
      · simpa [Synced,same] using synced
  · exact synced

theorem evict_dirty (c : PageCache ι δ) (p : ι) {q : ι} (pinned : c.pin q ≠ 0) : (c.evict p).dirty q = c.dirty q := by
  unfold evict
  split
  · rename_i free
    have apart : q ≠ p := fun same => pinned (same ▸ free)
    split
    · simp [apart]
    · rfl
  · rfl

section EvictAll

variable (c : PageCache ι δ) (pages : List ι)

@[simp] theorem evictAll_pin : (c.evictAll pages).pin = c.pin := by
  induction pages generalizing c with
  | nil => rfl
  | cons p rest ih => exact (ih (c.evict p)).trans (evict_pin c p)

theorem evictAll_synced {q : ι} (synced : c.Synced q) : (c.evictAll pages).Synced q := by
  induction pages generalizing c with
  | nil => exact synced
  | cons p rest ih => exact ih (c.evict p) (evict_synced c p q synced)

theorem evictAll_view (synced : ∀ q, c.pin q = 0 → c.Synced q) : (c.evictAll pages).view = c.view := by
  induction pages generalizing c with
  | nil => rfl
  | cons p rest ih =>
    refine (ih (c.evict p) fun q free => ?_).trans (evict_view c p (synced p))
    rw [evict_pin] at free
    exact evict_synced c p q (synced q free)

theorem evictAll_dirty {q : ι} (pinned : c.pin q ≠ 0) : (c.evictAll pages).dirty q = c.dirty q := by
  induction pages generalizing c with
  | nil => rfl
  | cons p rest ih => exact (ih (c.evict p) (by rwa [evict_pin])).trans (evict_dirty c p pinned)

end EvictAll

/-- One pin: the page it holds and whether its holder wrote or created that page. -/
structure Token (ι : Type) where
  page : ι
  owes : Bool

/-- The invariant of disciplined clients: pins are counted, and a page that differs from
the store without being marked is held by a client that still owes the mark. -/
structure Disciplined (c : PageCache ι δ) (tokens : List (Token ι)) : Prop where
  counted : ∀ p, c.pin p = tokens.countP (·.page = p)
  covered : ∀ p, c.Synced p ∨ ∃ t ∈ tokens, t.page = p ∧ t.owes = true

variable {c : PageCache ι δ} {tokens : List (Token ι)}

section Disciplined

variable (d : Disciplined c tokens)

include d

/-- An unpinned page has no client left that owes a mark. -/
theorem Disciplined.synced (p : ι) (free : c.pin p = 0) : c.Synced p := by
  rcases d.covered p with synced | ⟨t,member,page,_⟩
  · exact synced
  · have none := d.counted p
    rw [free,eq_comm,List.countP_eq_zero] at none
    exact absurd page (by simpa using none t member)

theorem Disciplined.evict_view (p : ι) : (c.evict p).view = c.view :=
  PageCache.evict_view c p (d.synced p)

theorem Disciplined.evict (p : ι) : Disciplined (c.evict p) tokens := by
  refine ⟨by simpa using d.counted,fun q => ?_⟩
  exact (d.covered q).imp_left (evict_synced c p q)

theorem Disciplined.fetch (p : ι) :
    Disciplined (c.fetch p) (⟨p,false⟩ :: tokens) := by
  refine ⟨fun q => ?_,fun q => ?_⟩
  · by_cases same : q = p
    · subst q; simp [PageCache.fetch,d.counted]
    · simp [PageCache.fetch,same,Ne.symm same,d.counted]
  · rcases d.covered q with synced | ⟨t,member,rest⟩
    · exact .inl synced
    · exact .inr ⟨t,by simp [member],rest⟩

theorem Disciplined.create (p : ι) (x : δ) (free : c.pin p = 0) :
    Disciplined (c.create p x) (⟨p,true⟩ :: tokens) := by
  refine ⟨fun q => ?_,fun q => ?_⟩
  · by_cases same : q = p
    · have none : tokens.countP (·.page = p) = 0 := (d.counted p).symm.trans free
      simp [PageCache.create,same,none]
    · simp [PageCache.create,same,Ne.symm same,d.counted]
  · by_cases same : q = p
    · exact .inr ⟨⟨p,true⟩,by simp,same.symm,rfl⟩
    · rcases d.covered q with synced | ⟨t,member,rest⟩
      · exact .inl (by simpa [Synced,PageCache.create,same] using synced)
      · exact .inr ⟨t,by simp [member],rest⟩

end Disciplined

theorem Disciplined.write {before after : List (Token ι)} {t : Token ι} (d : Disciplined c (before ++ t :: after))
    (x : δ) :
    Disciplined (c.write t.page x) (before ++ ⟨t.page,true⟩ :: after) := by
  refine ⟨fun q => ?_,fun q => ?_⟩
  · have count := d.counted q
    simpa [PageCache.write,List.countP_append,List.countP_cons] using count
  · by_cases same : q = t.page
    · exact .inr ⟨⟨t.page,true⟩,by simp,same.symm,rfl⟩
    · rcases d.covered q with synced | ⟨u,member,page,owes⟩
      · exact .inl (by simpa [Synced,PageCache.write,same] using synced)
      · refine .inr ⟨u,?_,page,owes⟩
        rcases List.mem_append.mp member with left | here
        · simp [left]
        · rcases List.mem_cons.mp here with rfl | right
          · exact absurd page.symm same
          · simp [right]

theorem Disciplined.release {before after : List (Token ι)} {t : Token ι} {mark : Bool}
    (d : Disciplined c (before ++ t :: after)) (honest : t.owes = true → mark = true) :
    Disciplined (c.release t.page mark) (before ++ after) := by
  refine ⟨fun q => ?_,fun q => ?_⟩
  · have count := d.counted q
    by_cases same : q = t.page
    · subst q
      simp only [List.countP_append,List.countP_cons,decide_true,↓reduceIte] at count
      simp only [PageCache.release,Function.update_self,List.countP_append]
      omega
    · simpa [PageCache.release,same,Ne.symm same,List.countP_append,List.countP_cons] using count
  · rcases d.covered q with synced | ⟨u,member,page,owes⟩
    · left
      by_cases same : q = t.page
      · subst q
        rcases synced with marked | equal
        · exact .inl (by simp [PageCache.release,marked])
        · exact .inr equal
      · simpa [Synced,PageCache.release,same] using synced
    · rcases List.mem_append.mp member with left | here
      · exact .inr ⟨u,by simp [left],page,owes⟩
      · rcases List.mem_cons.mp here with rfl | right
        · exact .inl (.inl (by simp [PageCache.release,page,honest owes]))
        · exact .inr ⟨u,by simp [right],page,owes⟩

theorem Disciplined.flush (d : Disciplined c tokens) (p : ι) : Disciplined (c.flush p) tokens := by
  refine ⟨d.counted,fun q => ?_⟩
  by_cases same : q = p
  · subst q; exact .inl (.inr (by simp [PageCache.flush]))
  · exact (d.covered q).imp_left (fun synced => by simpa [Synced,PageCache.flush,same] using synced)

theorem Disciplined.evictAll (d : Disciplined c tokens) (pages : List ι) :
    Disciplined (c.evictAll pages) tokens ∧ (c.evictAll pages).view = c.view := by
  induction pages generalizing c with
  | nil => exact ⟨d,rfl⟩
  | cons p rest ih =>
    obtain ⟨kept,same⟩ := ih (d.evict p)
    exact ⟨kept,same.trans (d.evict_view p)⟩

theorem Disciplined.flushAll (d : Disciplined c tokens) (pages : List ι) :
    Disciplined (c.flushAll pages) tokens ∧ (c.flushAll pages).view = c.view := by
  induction pages generalizing c with
  | nil => exact ⟨d,rfl⟩
  | cons p rest ih => exact ih (d.flush p)

end PageCache

end Rucbase.Lib
