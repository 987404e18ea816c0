import Mathlib.Data.Set.Card
import Mathlib.Order.Defs.LinearOrder
/-!
# A cache that counts uses

The least-frequently-used cache as a function of its keys. A stored key has
its latest value and expiry, the puts and hits since it was inserted, and the
moment it reached that many; moments count operations, so no two keys reach
theirs at one. The key that goes first is the one that reached the least
count earliest.
-/

namespace Congine

/-- What is kept of a stored key. -/
structure Use (V T : Type*) where
  value : V
  expireAt : T
  /-- Puts and hits since the key was inserted. -/
  count : ℕ
  /-- The moment it reached that many. -/
  since : ℕ

/-- The use that counts less, or as much from an earlier moment on. -/
def Use.Before {V T : Type*} (use use' : Use V T) : Prop :=
  use.count < use'.count ∨ use.count = use'.count ∧ use.since < use'.since

structure FrequencyCache (κ V T : Type*) where
  capacity : ℕ
  uses : κ → Option (Use V T) := fun _ => none
  /-- Operations so far. -/
  moment : ℕ := 0

namespace FrequencyCache

variable {κ V T : Type*}

def stored (a : FrequencyCache κ V T) : Set κ := {key | (a.uses key).isSome}

noncomputable def size (a : FrequencyCache κ V T) : ℕ := a.stored.ncard

/-- An operation is over. -/
def tick (a : FrequencyCache κ V T) : FrequencyCache κ V T := { a with moment := a.moment + 1 }

/-- The stored key that comes before every other. -/
def Least (a : FrequencyCache κ V T) (key : κ) : Prop :=
  ∃ use, a.uses key = some use ∧
    ∀ key' use', key' ≠ key → a.uses key' = some use' → use.Before use'

/-- **At most one key is the least.** -/
theorem Least.unique {a : FrequencyCache κ V T} {key key' : κ} (h : a.Least key)
    (h' : a.Least key') : key = key' := by
  obtain ⟨use, huse, hbefore⟩ := h
  obtain ⟨use', huse', hbefore'⟩ := h'
  by_contra hne
  have h₁ := hbefore key' use' (Ne.symm hne) huse'
  have h₂ := hbefore' key use hne huse
  unfold Use.Before at h₁ h₂
  omega

/-- A list of keys from the earliest moment on. -/
def InOrder (a : FrequencyCache κ V T) (keys : List κ) : Prop :=
  keys.Pairwise fun key key' => ∀ use use', a.uses key = some use →
    a.uses key' = some use' → use.since < use'.since

theorem InOrder.mono {a a' : FrequencyCache κ V T} {keys : List κ} (h : a.InOrder keys)
    (hback : ∀ key ∈ keys, ∀ use, a'.uses key = some use →
      ∃ use₀, a.uses key = some use₀ ∧ use₀.since = use.since) : a'.InOrder keys := by
  refine List.Pairwise.imp_of_mem ?_ h
  intro k k' hk hk' hlt use use' huse huse'
  obtain ⟨use₀, h₀, hsince⟩ := hback k hk use huse
  obtain ⟨use₀', h₀', hsince'⟩ := hback k' hk' use' huse'
  rw [← hsince, ← hsince']
  exact hlt use₀ use₀' h₀ h₀'

variable [DecidableEq κ]

def erase (a : FrequencyCache κ V T) (key : κ) : FrequencyCache κ V T :=
  { a with uses := Function.update a.uses key none }

def record (a : FrequencyCache κ V T) (key : κ) (use : Use V T) : FrequencyCache κ V T :=
  { a with uses := Function.update a.uses key (some use) }

theorem erase_uses (a : FrequencyCache κ V T) (key key' : κ) :
    (a.erase key).uses key' = if key' = key then none else a.uses key' :=
  Function.update_apply ..

theorem record_uses (a : FrequencyCache κ V T) (key : κ) (use : Use V T) (key' : κ) :
    (a.record key use).uses key' = if key' = key then some use else a.uses key' :=
  Function.update_apply ..

/-- What is left was there, under another key. -/
theorem erase_uses_eq_some {a : FrequencyCache κ V T} {key key' : κ} {use : Use V T}
    (h : (a.erase key).uses key' = some use) : key' ≠ key ∧ a.uses key' = some use := by
  rw [erase_uses] at h
  split at h
  · cases h
  · next hk => exact ⟨hk, h⟩

/-- What is there was recorded or was there before. -/
theorem record_uses_eq_some {a : FrequencyCache κ V T} {key key' : κ} {use use' : Use V T}
    (h : (a.record key use).uses key' = some use') :
    key' = key ∧ use' = use ∨ key' ≠ key ∧ a.uses key' = some use' := by
  rw [record_uses] at h
  split at h
  · next hk => exact .inl ⟨hk, (Option.some.inj h).symm⟩
  · next hk => exact .inr ⟨hk, h⟩

/-- A key that is not among them is recorded. -/
theorem InOrder.record {a : FrequencyCache κ V T} {keys : List κ} (h : a.InOrder keys) {key : κ}
    (hkey : key ∉ keys) (use : Use V T) : (a.record key use).InOrder keys := by
  refine h.mono fun k hk use' huse' => ?_
  rcases record_uses_eq_some huse' with ⟨rfl, -⟩ | ⟨-, huse'⟩
  · exact absurd hk hkey
  · exact ⟨use', huse', rfl⟩

/-- **A key recorded at the present moment comes last.** -/
theorem InOrder.concat {a : FrequencyCache κ V T} {keys : List κ} (h : a.InOrder keys) {key : κ}
    (hkey : key ∉ keys) (hlt : ∀ key use, a.uses key = some use → use.since < a.moment)
    {use : Use V T} (hsince : use.since = a.moment) :
    (a.record key use).InOrder (keys ++ [key]) := by
  refine List.pairwise_append.mpr ⟨h.record hkey use, List.pairwise_singleton .., ?_⟩
  intro k hk k' hk' use₁ use₂ h₁ h₂
  obtain rfl := List.mem_singleton.mp hk'
  rw [record_uses, if_pos rfl, Option.some.injEq] at h₂
  rcases record_uses_eq_some h₁ with ⟨rfl, -⟩ | ⟨-, h₁⟩
  · exact absurd hk hkey
  · have := hlt k use₁ h₁
    rw [← h₂]
    omega

open Classical in
/-- The least key goes. -/
noncomputable def evict (a : FrequencyCache κ V T) : FrequencyCache κ V T :=
  if h : ∃ key, a.Least key then a.erase h.choose else a

theorem evict_of_least {a : FrequencyCache κ V T} {key : κ} (h : a.Least key) :
    a.evict = a.erase key := by
  have hex : ∃ key, a.Least key := ⟨key, h⟩
  rw [evict, dif_pos hex, hex.choose_spec.unique h]

/-- A put counts as a use of a key that is stored, expired or not; a new key
takes the place of the least where the cache is full. -/
noncomputable def put (a : FrequencyCache κ V T) (key : κ) (value : V) (expireAt : T) :
    FrequencyCache κ V T :=
  match a.uses key with
  | some use => a.record key { value, expireAt, count := use.count + 1, since := a.moment }
  | none =>
      (if a.capacity ≤ a.size then a.evict else a).record key
        { value, expireAt, count := 1, since := a.moment }

def clear (a : FrequencyCache κ V T) : FrequencyCache κ V T := { a with uses := fun _ => none }

variable [LinearOrder T]

/-- A read answers from the latest put and counts; an expired key goes. -/
def get (a : FrequencyCache κ V T) (now : T) (key : κ) : Option V × FrequencyCache κ V T :=
  match a.uses key with
  | none => (none, a)
  | some use =>
      if use.expireAt ≤ now then (none, a.erase key)
      else (some use.value, a.record key { use with count := use.count + 1, since := a.moment })

/-- A check answers as a read does and does not count. -/
def holds (a : FrequencyCache κ V T) (now : T) (key : κ) : Bool × FrequencyCache κ V T :=
  match a.uses key with
  | none => (false, a)
  | some use => if use.expireAt ≤ now then (false, a.erase key) else (true, a)

/-- The stored keys that have expired, each at the instant it is looked at. -/
def expired (a : FrequencyCache κ V T) (clock : κ → T) : Set κ :=
  {key | ∃ use, a.uses key = some use ∧ use.expireAt ≤ clock key}

open Classical in
/-- Every expired key goes. -/
noncomputable def sweep (a : FrequencyCache κ V T) (clock : κ → T) :
    ℕ × FrequencyCache κ V T :=
  ((a.expired clock).ncard,
    { a with uses := fun key => if key ∈ a.expired clock then none else a.uses key })

end FrequencyCache

end Congine
