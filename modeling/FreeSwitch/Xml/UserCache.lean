import FreeSwitch.HashTable.CoreHash
import FreeSwitch.Utils

/-!
# XML — the cache of directory users (`switch_xml.c`)

Users are cached under a key, a user name and a domain name, written one after another without a
separator into a buffer of 1024 bytes. A second table has the times at which entries expire, as
texts.

The abstract cache is a map from triples to trees and times. `Effect` is what a call does to it.

* **`step_eq`** — what each call does.
* **`Represents`** — the tables hold the abstract cache, on triples that do not collide.
* **`userCache_own`** — a lookup gives the tree last cached under its own triple, whatever the calls,
  exactly if no two triples collide; and an entry is then served until its time.
* **`userCache_stolen`** — what happens otherwise.
-/

namespace FreeSwitch.UserCache

open CString HashTable

structure Triple where
  key : Str
  user : Str
  domain : Str
  deriving DecidableEq

/-- `switch_snprintf(mega_key, sizeof(mega_key), "%s%s%s", key, user_name, domain_name)`. -/
def megaKey (p : Triple) : Str := (p.key ++ p.user ++ p.domain).take 1023

/-- `CACHE_HASH` and `CACHE_EXPIRES_HASH`. -/
structure Cache (τ : Type) where
  cacheHash : SwitchHash τ
  cacheExpiresHash : SwitchHash Str

/-- One round of the loop of `switch_xml_locate_user_merged`: a key, what `switch_xml_locate_user`
finds under it, merged with its domain and group, and the times of the two questions for the time. -/
structure Attempt (τ : Type) where
  key : Str
  located : Option τ
  looked : Int
  stored : Int

inductive Call (τ : Type) where
  | cache (p : Triple) (user : τ) (expires : Int)
  | clear (key user domain : Option Str)
  | locate (p : Triple) (now : Int)
  | merged (attempts : List (Attempt τ)) (user domain : Str)

section

-- `switch_xml_dup`, and the attribute `cacheable` of a tree
variable {τ : Type} (dup : τ → τ) (cacheable : τ → Option Str)

/-! ## The calls -/

/-- `if ((x = switch_core_hash_find(hash, key))) switch_core_hash_delete(hash, key);` -/
def deleteFound {υ : Type} (h : SwitchHash υ) (k : Str) : SwitchHash υ :=
  match switchCoreHashFind h k with
  | some _ => switchCoreHashDelete h k
  | none => h

def switchXmlClearUserCache (st : Cache τ) (key user domain : Option Str) : Cache τ × Nat :=
  match key, user, domain with
  | some key, some user, some domain =>
    let k := megaKey ⟨key, user, domain⟩
    match switchCoreHashFind st.cacheHash k with
    | some _ => (⟨switchCoreHashDelete st.cacheHash k, deleteFound st.cacheExpiresHash k⟩, 1)
    | none => (st, 0)
  | _, _, _ =>
    let (users, r) := drain (contents st.cacheHash).length st.cacheHash
    (⟨users, (drain (contents st.cacheExpiresHash).length st.cacheExpiresHash).1⟩, r)

def switchXmlLocateUserCache (st : Cache τ) (p : Triple) (now : Int) : Option τ :=
  match switchCoreHashFind st.cacheHash (megaKey p) with
  | some lookup =>
    match switchCoreHashFind st.cacheExpiresHash (megaKey p) with
    | some expires => if strtol expires < now then none else some (dup lookup)
    | none => some (dup lookup)
  | none => none

def switchXmlUserCache (st : Cache τ) (p : Triple) (user : τ) (expires : Int) : Cache τ :=
  let k := megaKey p
  let users := deleteFound st.cacheHash k
  let times := deleteFound st.cacheExpiresHash k
  ⟨switchCoreHashInsert users k (dup user),
    if expires ≠ 0 then switchCoreHashInsert times k (printInt expires) else times⟩

/-- `time_now + (cache_ms * 1000)`, where `cache_ms` is an `int`; without a number, 0. -/
def expiresAt (now : Int) (text : Str) : Int :=
  if switchIsNumber text then (now + (atoi text * 1000).bmod (2 ^ 32)).bmod (2 ^ 64) else 0

/-- The loop over the keys. -/
def switchXmlLocateUserMerged (st : Cache τ) (user domain : Str) : List (Attempt τ) → Cache τ × Option τ
  | [] => (st, none)
  | a :: attempts =>
    match switchXmlLocateUserCache dup st ⟨a.key, user, domain⟩ a.looked with
    | some x => (st, some x)
    | none =>
      match a.located with
      | some x =>
        match cacheable x with
        | some (c :: text) =>
          (switchXmlUserCache dup st ⟨a.key, user, domain⟩ x (expiresAt a.stored (c :: text)), some x)
        | _ => (st, some x)
      | none => switchXmlLocateUserMerged st user domain attempts

def step (st : Cache τ) : Call τ → Cache τ
  | .cache p user expires => switchXmlUserCache dup st p user expires
  | .clear key user domain => (switchXmlClearUserCache st key user domain).1
  | .locate _ _ => st
  | .merged attempts user domain => (switchXmlLocateUserMerged dup cacheable st user domain attempts).1

def emptyCache : Cache τ := ⟨switchCoreHashInit, switchCoreHashInit⟩

/-- The cache after the calls. -/
def cacheAfter (calls : List (Call τ)) : Cache τ := calls.foldl (step dup cacheable) emptyCache

/-! ## Effects -/

/-- What a call does to the entries. -/
inductive Effect (τ : Type) where
  | keep
  | put (p : Triple) (user : τ) (expires : Int)
  | drop (p : Triple)
  | dropAll

/-- The round that stores what it has found, with the text of its attribute `cacheable`. -/
def storing (st : Cache τ) (user domain : Str) : List (Attempt τ) → Option (Attempt τ × τ × Str)
  | [] => none
  | a :: attempts =>
    match switchXmlLocateUserCache dup st ⟨a.key, user, domain⟩ a.looked with
    | some _ => none
    | none =>
      match a.located with
      | some x =>
        match cacheable x with
        | some (c :: text) => some (a, x, c :: text)
        | _ => none
      | none => storing st user domain attempts

def effect (st : Cache τ) : Call τ → Effect τ
  | .cache p user expires => .put p user expires
  | .clear (some key) (some user) (some domain) => .drop ⟨key, user, domain⟩
  | .clear _ _ _ => .dropAll
  | .locate _ _ => .keep
  | .merged attempts user domain =>
    match storing dup cacheable st user domain attempts with
    | some (a, x, text) => .put ⟨a.key, user, domain⟩ x (expiresAt a.stored text)
    | none => .keep

/-- The effect, brought about by the two calls that change the tables. -/
def Effect.perform (st : Cache τ) : Effect τ → Cache τ
  | .keep => st
  | .put p user expires => switchXmlUserCache dup st p user expires
  | .drop p => (switchXmlClearUserCache st (some p.key) (some p.user) (some p.domain)).1
  | .dropAll => (switchXmlClearUserCache st none none none).1

theorem merged_eq (st : Cache τ) (user domain : Str) (attempts : List (Attempt τ)) :
    (switchXmlLocateUserMerged dup cacheable st user domain attempts).1
      = (effect dup cacheable st (.merged attempts user domain)).perform dup st := by
  induction attempts with
  | nil => rfl
  | cons a attempts ih =>
    simp only [switchXmlLocateUserMerged, effect, storing]
    split
    · rfl
    · split
      · split <;> rfl
      · exact ih

/-- Whatever a call does, it does through one effect. -/
theorem step_eq (st : Cache τ) (call : Call τ) :
    step dup cacheable st call = (effect dup cacheable st call).perform dup st := by
  cases call with
  | cache p user expires => rfl
  | clear key user domain =>
    cases key with
    | none => rfl
    | some key =>
      cases user with
      | none => rfl
      | some user => cases domain <;> rfl
  | locate p now => rfl
  | merged attempts user domain => exact merged_eq dup cacheable st user domain attempts

/-! ## The abstract cache -/

/-- Each triple has its own tree, and the time at which it expires; 0 stands for never. -/
abbrev Store (τ : Type) := Triple → Option (τ × Int)

def Effect.act (s : Store τ) : Effect τ → Store τ
  | .keep => s
  | .put p user expires => Function.update s p (some (user, expires))
  | .drop p => Function.update s p none
  | .dropAll => fun _ => none

/-- The effects of the calls, one after another. -/
def effects (st : Cache τ) : List (Call τ) → List (Effect τ)
  | [] => []
  | call :: calls => effect dup cacheable st call :: effects (step dup cacheable st call) calls

/-- What was cached last under each triple and not cleared since. -/
def lastCached (calls : List (Call τ)) : Store τ :=
  (effects dup cacheable emptyCache calls).foldl Effect.act fun _ => none

/-- The text in the table of times. -/
def timeText (entry : Option (τ × Int)) : Option Str :=
  entry.bind fun e => if e.2 = 0 then none else some (printInt e.2)

/-- The tables hold the abstract cache, as far as the triples of `T` go. -/
structure Represents (T : Set Triple) (st : Cache τ) (s : Store τ) : Prop where
  hash : Intact st.cacheHash
  expires : Intact st.cacheExpiresHash
  user : ∀ p ∈ T, switchCoreHashFind st.cacheHash (megaKey p) = (s p).map (dup ∘ Prod.fst)
  time : ∀ p ∈ T, switchCoreHashFind st.cacheExpiresHash (megaKey p) = timeText (s p)

variable {dup cacheable} {T : Set Triple} {st : Cache τ} {s : Store τ}

theorem intact_deleteFound {υ : Type} {h : SwitchHash υ} (hi : Intact h) (k : Str) :
    Intact (deleteFound h k) := by
  unfold deleteFound
  split
  · exact hi.delete k
  · exact hi

theorem find_deleteFound {υ : Type} {h : SwitchHash υ} (hi : Intact h) (k : Str) :
    switchCoreHashFind (deleteFound h k) = Function.update (switchCoreHashFind h) k none := by
  unfold deleteFound
  split
  · exact hi.find_delete k
  · rename_i hnone
    rw [← hnone, Function.update_eq_self]

/-- Two updates, of a table and of the abstract cache, agree where the keys do not collide. -/
theorem update_megaKey {υ : Type} (hT : T.InjOn megaKey) {f : Str → Option υ}
    {g : Option (τ × Int) → Option υ}
    (hfg : ∀ p ∈ T, f (megaKey p) = g (s p)) {p : Triple} (hp : p ∈ T) {v : Option υ}
    {e : Option (τ × Int)} (hv : v = g e) :
    ∀ q ∈ T, Function.update f (megaKey p) v (megaKey q) = g (Function.update s p e q) := by
  intro q hq
  rcases eq_or_ne q p with rfl | hne
  · rw [Function.update_self, Function.update_self, hv]
  · rw [Function.update_of_ne hne, Function.update_of_ne fun h => hne (hT hq hp h)]
    exact hfg q hq

theorem Represents.put (hT : T.InjOn megaKey) (h : Represents dup T st s) {p : Triple}
    (hp : p ∈ T) (user : τ)
    (expires : Int) : Represents dup T (switchXmlUserCache dup st p user expires)
      (Function.update s p (some (user, expires))) := by
  have hhash := intact_deleteFound h.hash (megaKey p)
  have htimes := intact_deleteFound h.expires (megaKey p)
  refine ⟨hhash.insert _ _, ?_, ?_, ?_⟩
  · show Intact (if expires ≠ 0 then _ else _)
    split
    · exact htimes.insert _ _
    · exact htimes
  · show ∀ q ∈ T, switchCoreHashFind (switchCoreHashInsert _ (megaKey p) (dup user)) (megaKey q) = _
    rw [hhash.find_insert, find_deleteFound h.hash, Function.update_idem]
    exact update_megaKey hT h.user hp rfl
  · show ∀ q ∈ T, switchCoreHashFind (if expires ≠ 0 then _ else _) (megaKey q) = _
    split
    · rename_i hne
      rw [htimes.find_insert, find_deleteFound h.expires, Function.update_idem]
      exact update_megaKey hT h.time hp (if_neg hne).symm
    · rename_i hzero
      rw [find_deleteFound h.expires]
      exact update_megaKey hT h.time hp (if_pos (not_not.mp hzero)).symm

theorem Represents.drop (hT : T.InjOn megaKey) (h : Represents dup T st s) {p : Triple} (hp : p ∈ T) :
    Represents dup T (switchXmlClearUserCache st (some p.key) (some p.user) (some p.domain)).1
      (Function.update s p none) := by
  simp only [switchXmlClearUserCache]
  split
  · refine ⟨h.hash.delete _, intact_deleteFound h.expires _, ?_, ?_⟩
    · rw [h.hash.find_delete]
      exact update_megaKey hT h.user hp rfl
    · rw [find_deleteFound h.expires]
      exact update_megaKey hT h.time hp rfl
  · rename_i hnone
    -- there is nothing under the key, so the triple has no entry either
    have hs : s p = none := Option.map_eq_none_iff.mp ((h.user p hp).symm.trans hnone)
    rw [← hs, Function.update_eq_self]
    exact h

theorem Represents.dropAll (h : Represents dup T st s) :
    Represents dup T (switchXmlClearUserCache st none none none).1 fun _ => none :=
  ⟨h.hash.drain, h.expires.drain, fun _ _ => h.hash.find_drain _, fun _ _ => h.expires.find_drain _⟩

/-- The triples of an effect are of `T`. -/
def Effect.Over (T : Set Triple) : Effect τ → Prop
  | .put p _ _ => p ∈ T
  | .drop p => p ∈ T
  | _ => True

theorem Represents.perform (hT : T.InjOn megaKey) (h : Represents dup T st s) {e : Effect τ}
    (he : e.Over T) :
    Represents dup T (e.perform dup st) (e.act s) := by
  cases e with
  | keep => exact h
  | put p user expires => exact h.put hT he user expires
  | drop p => exact h.drop hT he
  | dropAll => exact h.dropAll

/-! ## Runs -/

/-- The triples that a call may cache or clear are of `T`. -/
def Call.Over (T : Set Triple) : Call τ → Prop
  | .cache p _ _ => p ∈ T
  | .clear (some key) (some user) (some domain) => ⟨key, user, domain⟩ ∈ T
  | .clear _ _ _ => True
  | .locate p _ => p ∈ T
  | .merged attempts user domain => ∀ a ∈ attempts, ⟨a.key, user, domain⟩ ∈ T

theorem storing_mem {user domain : Str} {attempts : List (Attempt τ)} {r : Attempt τ × τ × Str}
    (h : storing dup cacheable st user domain attempts = some r) : r.1 ∈ attempts := by
  induction attempts with
  | nil => exact nomatch h
  | cons a attempts ih =>
    rw [storing] at h
    split at h
    · exact nomatch h
    · split at h
      · split at h
        · rw [← Option.some.inj h]
          exact List.mem_cons_self
        · exact nomatch h
      · exact List.mem_cons_of_mem a (ih h)

theorem over_effect {call : Call τ} (h : call.Over T) : (effect dup cacheable st call).Over T := by
  cases call with
  | cache p user expires => exact h
  | clear key user domain =>
    cases key with
    | none => trivial
    | some key =>
      cases user with
      | none => trivial
      | some user =>
        cases domain with
        | none => trivial
        | some domain => exact h
  | locate p now => trivial
  | merged attempts user domain =>
    rw [effect]
    split
    · rename_i a x text hstoring
      exact h a (storing_mem hstoring)
    · trivial

theorem Represents.foldl (hT : T.InjOn megaKey) {calls : List (Call τ)}
    (hcalls : ∀ call ∈ calls, call.Over T) :
    ∀ {st : Cache τ} {s : Store τ}, Represents dup T st s →
      Represents dup T (calls.foldl (step dup cacheable) st)
        ((effects dup cacheable st calls).foldl Effect.act s) := by
  induction calls with
  | nil => exact fun h => h
  | cons call calls ih =>
    intro st s h
    refine ih (fun c hc => hcalls c (List.mem_cons_of_mem call hc)) ?_
    rw [step_eq]
    exact h.perform hT (over_effect (hcalls call List.mem_cons_self))

theorem represents_empty (T : Set Triple) : Represents dup T emptyCache fun _ => none :=
  ⟨intact_init, intact_init, fun _ _ => find_init _, fun _ _ => find_init _⟩

theorem represents_after (hT : T.InjOn megaKey) {calls : List (Call τ)}
    (hcalls : ∀ call ∈ calls, call.Over T) :
    Represents dup T (cacheAfter dup cacheable calls) (lastCached dup cacheable calls) :=
  (represents_empty T).foldl hT hcalls

/-- A lookup in the tables, in terms of the abstract cache. -/
theorem Represents.locate (h : Represents dup T st s) {p : Triple} (hp : p ∈ T) (now : Int) :
    switchXmlLocateUserCache dup st p now = (s p).bind fun e =>
      if e.2 ≠ 0 ∧ strtol (printInt e.2) < now then none else some (dup (dup e.1)) := by
  unfold switchXmlLocateUserCache
  rw [h.user p hp, h.time p hp]
  cases s p with
  | none => rfl
  | some e =>
    obtain ⟨user, expires⟩ := e
    rcases eq_or_ne expires 0 with rfl | hne
    · rfl
    · show (match timeText (some (user, expires)) with
        | some expires => if strtol expires < now then none else some (dup (dup user))
        | none => some (dup (dup user))) = _
      rw [timeText, Option.bind_some, if_neg hne, Option.bind_some]
      exact if_congr (by simp [hne]) rfl rfl

/-! ## Lookups -/

/-- Whatever the calls on triples of `T`, a lookup gives the tree last cached under its triple. -/
def OwnTree (dup : τ → τ) (cacheable : τ → Option Str) (T : Set Triple) : Prop :=
  ∀ calls : List (Call τ), (∀ call ∈ calls, call.Over T) → ∀ p ∈ T, ∀ now x,
    switchXmlLocateUserCache dup (cacheAfter dup cacheable calls) p now = some x →
      ∃ user expires, lastCached dup cacheable calls p = some (user, expires) ∧ x = dup (dup user)

/-- The effect is on the entry of `p`. -/
def Effect.Touches (p : Triple) : Effect τ → Prop
  | .keep => False
  | .put q _ _ => q = p
  | .drop q => q = p
  | .dropAll => True

/-- An entry that was stored at the time `t` for `n` milliseconds is found until `t + 1000 * n`, if
no call is on it. -/
def Served (dup : τ → τ) (cacheable : τ → Option Str) (T : Set Triple) (t : Int) (n : Nat) : Prop :=
  ∀ (calls later : List (Call τ)) (attempts : List (Attempt τ)) (user domain : Str) (a :
    Attempt τ) (x : τ)
    (text : Str) (now : Int),
    (∀ call ∈ calls, call.Over T) → (∀ call ∈ later, call.Over T) →
    (Call.merged attempts user domain).Over T →
    storing dup cacheable (cacheAfter dup cacheable calls) user domain attempts = some (a, x, text) →
    a.stored = t → (∀ c ∈ text, isDigit c) → digits 0 text = n →
    (∀ e ∈ effects dup cacheable (cacheAfter dup cacheable
      (calls ++ [.merged attempts user domain])) later,
      ¬ e.Touches ⟨a.key, user, domain⟩) →
    now ≤ t + 1000 * n →
    switchXmlLocateUserCache dup
      (cacheAfter dup cacheable (calls ++ [.merged attempts user domain] ++ later))
      ⟨a.key, user, domain⟩ now = some (dup (dup x))

theorem injOn_of_ownTree (tree : τ) (h : OwnTree dup cacheable T) : T.InjOn megaKey := by
  intro p hp q hq hkey
  by_contra hne
  -- what is cached under `p` is found under `q`
  have hcached : ∀ call ∈ [Call.cache p tree 0], call.Over T := by
    intro call hcall
    rw [List.mem_singleton.mp hcall]
    exact hp
  have hself : Represents dup {p} (cacheAfter dup cacheable [.cache p tree 0])
      (lastCached dup cacheable [.cache p tree 0]) := by
    refine represents_after (Set.injOn_singleton megaKey p) fun call hcall => ?_
    rw [List.mem_singleton.mp hcall]
    exact rfl
  have hp' := hself.locate (p := p) rfl 0
  have hq' : switchXmlLocateUserCache dup (cacheAfter dup cacheable [.cache p tree 0]) q 0
      = some (dup (dup tree)) := by
    unfold switchXmlLocateUserCache at hp' ⊢
    rw [← hkey, hp']
    show (Function.update (fun _ => none) p (some (tree, 0)) p).bind _ = _
    rw [Function.update_self]
    rfl
  obtain ⟨user, expires, hlast, -⟩ := h _ hcached q hq 0 _ hq'
  have hnone : lastCached dup cacheable [.cache p tree 0] q = none := by
    show Function.update (fun _ => none) p (some (tree, 0)) q = none
    rw [Function.update_of_ne (Ne.symm hne)]
  rw [hnone] at hlast
  exact nomatch hlast

theorem ownTree_of_injOn (hT : T.InjOn megaKey) : OwnTree dup cacheable T := by
  intro calls hcalls p hp now x hx
  rw [(represents_after hT hcalls).locate hp] at hx
  obtain ⟨⟨user, expires⟩, hlast, hx⟩ := Option.bind_eq_some_iff.mp hx
  refine ⟨user, expires, hlast, ?_⟩
  split at hx
  · exact nomatch hx
  · exact (Option.some.inj hx).symm

/-! ## Times -/

/-- The time that is added is cut to 32 bits. -/
theorem expiresAt_of_isDigit {text : Str} (h : ∀ c ∈ text, isDigit c) (t : Int) :
    expiresAt t text = (t + (min (digits 0 text : Int) (2 ^ 63 - 1) * 1000).bmod (2 ^ 32)).bmod
      (2 ^ 64) := by
  rw [expiresAt, if_pos (switchIsNumber_of_isDigit h), atoi, strtol_of_isDigit h, Int.bmod_mul_bmod]

theorem expiresAt_eq {text : Str} (h : ∀ c ∈ text, isDigit c) {t : Int} (ht : 0 ≤ t)
    (hn : digits 0 text ≤ 2147483) (hlast : t + 1000 * digits 0 text < 2 ^ 63) :
    expiresAt t text = t + 1000 * digits 0 text := by
  have hms : ((digits 0 text : Int) * 1000).bmod (2 ^ 32) = digits 0 text * 1000 :=
    Int.bmod_eq_of_le (by omega) (by omega)
  rw [expiresAt_of_isDigit h, min_eq_left (by omega), hms, Int.bmod_eq_of_le (by omega) (by omega)]
  omega

/-- A number that is too large leaves less time than it gives. -/
theorem expiresAt_lt {text : Str} (h : ∀ c ∈ text, isDigit c) {t : Int} (ht : 2 ^ 31 < t)
    (hn : 2147483 < digits 0 text) (hlast : t + 1000 * digits 0 text < 2 ^ 63) :
    0 < expiresAt t text ∧ expiresAt t text < t + 1000 * digits 0 text := by
  rw [expiresAt_of_isDigit h]
  generalize hx : (min (digits 0 text : Int) (2 ^ 63 - 1) * 1000).bmod (2 ^ 32) = x
  have hlow : -2 ^ 31 ≤ x := hx ▸ Int.le_bmod (by decide)
  have hhigh : x < 2 ^ 31 := hx ▸ Int.bmod_lt (by decide)
  rw [Int.bmod_eq_of_le (by omega) (by omega)]
  omega

theorem foldl_act_of_untouched {p : Triple} {es : List (Effect τ)} (h : ∀ e ∈ es, ¬ e.Touches p)
    (s : Store τ) :
    es.foldl Effect.act s p = s p := by
  induction es generalizing s with
  | nil => rfl
  | cons e es ih =>
    have he := h e List.mem_cons_self
    rw [List.foldl_cons, ih fun e' he' => h e' (List.mem_cons_of_mem e he')]
    cases e with
    | keep => rfl
    | put q user expires => exact Function.update_of_ne (Ne.symm he) _ _
    | drop q => exact Function.update_of_ne (Ne.symm he) _ _
    | dropAll => exact absurd trivial he

/-- What a call of `switch_xml_locate_user_merged` stores is in the abstract cache, until a call is on
it. -/
theorem lastCached_merged {calls later : List (Call τ)} {attempts : List (Attempt τ)}
    {user domain : Str} {a : Attempt τ} {x : τ} {text : Str}
    (hstoring : storing dup cacheable (cacheAfter dup cacheable calls) user domain attempts
      = some (a, x, text))
    (hlater :
      ∀ e ∈ effects dup cacheable (cacheAfter dup cacheable
        (calls ++ [.merged attempts user domain])) later,
      ¬ e.Touches ⟨a.key, user, domain⟩) :
    lastCached dup cacheable (calls ++ [.merged attempts user domain] ++ later) ⟨a.key, user, domain⟩
      = some (x, expiresAt a.stored text) := by
  have happend : ∀ (cs ds : List (Call τ)) (st : Cache τ), effects dup cacheable st (cs ++ ds)
      = effects dup cacheable st cs ++ effects dup cacheable (cs.foldl (step dup cacheable) st) ds := by
    intro cs
    induction cs with
    | nil => exact fun _ _ => rfl
    | cons c cs ih => exact fun ds st => congrArg _ (ih ds _)
  have heffect : effect dup cacheable (cacheAfter dup cacheable calls) (.merged attempts user domain)
      = .put ⟨a.key, user, domain⟩ x (expiresAt a.stored text) := by
    rw [effect, hstoring]
  rw [lastCached, happend, List.foldl_append]
  refine (foldl_act_of_untouched hlater _).trans ?_
  rw [happend, List.foldl_append]
  show Effect.act _ (effect dup cacheable (cacheAfter dup cacheable calls) _) _ = _
  rw [heffect]
  exact Function.update_self _ _ _

theorem served_of_le (hT : T.InjOn megaKey) {t : Int} {n : Nat} (ht : 0 ≤ t) (hn : n ≤ 2147483)
    (hlast : t + 1000 * n < 2 ^ 63) : Served dup cacheable T t n := by
  intro calls later attempts user domain a x text now hcalls hlater hmerged hstoring
    hstored hdigits htext
    huntouched hnow
  subst hstored htext
  have hover : ∀ call ∈ calls ++ [.merged attempts user domain] ++ later, call.Over T := by
    intro call hcall
    rcases List.mem_append.mp hcall with hcall | hcall
    · rcases List.mem_append.mp hcall with hcall | hcall
      · exact hcalls call hcall
      · rw [List.mem_singleton.mp hcall]
        exact hmerged
    · exact hlater call hcall
  have hp : ⟨a.key, user, domain⟩ ∈ T := hmerged a (storing_mem hstoring)
  rw [(represents_after hT hover).locate hp, lastCached_merged hstoring huntouched, Option.bind_some,
    expiresAt_eq hdigits ht hn hlast, strtol_printInt (by omega) hlast]
  exact if_neg fun h => absurd h.2 (not_lt.mpr hnow)

theorem le_of_served {t : Int} {x : τ} {c : UInt8} {text : Str} {p : Triple} (hp : p ∈ T)
    (hx : cacheable x = some (c :: text)) (hdigits : ∀ b ∈ c :: text, isDigit b) (ht : 2 ^ 31 < t)
    (hlast : t + 1000 * digits 0 (c :: text) < 2 ^ 63)
    (hserved : Served dup cacheable T t (digits 0 (c :: text))) : digits 0 (c :: text) ≤ 2147483 := by
  by_contra hn
  have hover : (Call.merged [⟨p.key, some x, t, t⟩] p.user p.domain).Over {p} := by
    intro a ha
    rw [List.mem_singleton.mp ha]
    exact rfl
  have hoverT : (Call.merged [⟨p.key, some x, t, t⟩] p.user p.domain).Over T := by
    intro a ha
    rw [List.mem_singleton.mp ha]
    exact hp
  have hstoring : storing dup cacheable
      (cacheAfter dup cacheable []) p.user p.domain [⟨p.key, some x, t, t⟩]
      = some (⟨p.key, some x, t, t⟩, x, c :: text) := by
    have hmiss : switchXmlLocateUserCache dup emptyCache ⟨p.key, p.user, p.domain⟩ t = none :=
      (represents_empty {p}).locate (p := ⟨p.key, p.user, p.domain⟩) rfl t
    show storing dup cacheable emptyCache _ _ _ = _
    rw [storing, hmiss]
    simp only [hx]
  have hfound :=
    hserved [] [] _ p.user p.domain _ x (c :: text) _ (by simp) (by simp) hoverT hstoring rfl
    hdigits rfl (by simp [effects]) le_rfl
  have hrep : Represents dup {p}
      (cacheAfter dup cacheable [.merged [⟨p.key, some x, t, t⟩] p.user p.domain])
      (lastCached dup cacheable [.merged [⟨p.key, some x, t, t⟩] p.user p.domain]) := by
    refine represents_after (Set.injOn_singleton megaKey p) fun call hcall => ?_
    rw [List.mem_singleton.mp hcall]
    exact hover
  have hlastCached : lastCached dup cacheable
      ([] ++ [.merged [⟨p.key, some x, t, t⟩] p.user p.domain] ++ [])
      ⟨p.key, p.user, p.domain⟩ = some (x, expiresAt t (c :: text)) :=
        lastCached_merged hstoring (by simp [effects])
  obtain ⟨hpos, hlt⟩ := expiresAt_lt hdigits ht (by omega) hlast
  have hlocate := hrep.locate (p := p) rfl (t + 1000 * digits 0 (c :: text))
  rw [show lastCached dup cacheable [.merged [⟨p.key, some x, t, t⟩] p.user p.domain] p
      = some (x, expiresAt t (c :: text)) from hlastCached, Option.bind_some,
    strtol_printInt (by omega) (by omega), if_pos ⟨by omega, hlt⟩] at hlocate
  exact nomatch hfound.symm.trans hlocate

end

/-! ## The cache -/

/-- **Every user gets their own tree exactly if no two have one key, and it is served for as long as the
attribute says, up to 2147483 seconds.** -/
theorem userCache_own {τ : Type} (dup : τ → τ) (cacheable : τ → Option Str) (tree : τ)
    (T : Set Triple) :
    (OwnTree dup cacheable T ↔ T.InjOn megaKey)
    ∧ (T.InjOn megaKey → ∀ (t : Int) (n : Nat), 0 ≤ t → t + 1000 * n < 2 ^ 63 → n ≤ 2147483 →
      Served dup cacheable T t n)
    ∧ ∀ p ∈ T, ∀ x c text, cacheable x = some (c :: text) → (∀ b ∈ c :: text, isDigit b) →
      ∀ t : Int, 2 ^ 31 < t → t + 1000 * digits 0 (c :: text) < 2 ^ 63 →
        Served dup cacheable T t (digits 0 (c :: text)) → digits 0 (c :: text) ≤ 2147483 := by
  refine ⟨⟨injOn_of_ownTree tree, ownTree_of_injOn⟩, ?_, ?_⟩
  · exact fun hT t n ht hlast hn => served_of_le hT ht hn hlast
  · exact fun p hp x c text hx hdigits t ht hlast => le_of_served hp hx hdigits ht hlast

/-- Two users of one domain, for a minute each. -/
theorem userCache_own_minute :
    let T : Set Triple := {⟨bytes "id", bytes "1000", bytes "example.com"⟩,
      ⟨bytes "id", bytes "1001", bytes "example.com"⟩}
    T.InjOn megaKey ∧ OwnTree (τ := Str) id some T ∧ Served (τ := Str) id some T (10 ^ 15) 60000 := by
  intro T
  have hT : T.InjOn megaKey := by
    intro p hp q hq hkey
    rcases hp with rfl | rfl <;> rcases hq with rfl | rfl
    · rfl
    · exact absurd hkey (by decide)
    · exact absurd hkey (by decide)
    · rfl
  obtain ⟨hown, hserved, -⟩ := userCache_own (τ := Str) id some [] T
  exact ⟨hT, hown.mpr hT, hserved hT _ _ (by decide) (by decide) (by decide)⟩

/-- The first call of `userCache_stolen`. -/
def cachesOther : List (Call Str) :=
  [.cache ⟨bytes "id", bytes "100", bytes "110.0.0.1"⟩ (bytes "secret") 0]

/-- The tree of one user is found for another, and an entry of fifty minutes is gone after a second. -/
theorem userCache_stolen :
    switchXmlLocateUserCache id (cacheAfter id some cachesOther) ⟨bytes "id", bytes "1001",
      bytes "10.0.0.1"⟩ 0
      = some (bytes "secret")
    ∧ lastCached id some cachesOther ⟨bytes "id", bytes "1001", bytes "10.0.0.1"⟩ = none
    ∧ switchXmlLocateUserCache id
        (cacheAfter id some
          [.merged [⟨bytes "id", some (bytes "3000000"), 10 ^ 15, 10 ^ 15⟩] (bytes "1001")
            (bytes "10.0.0.1")])
        ⟨bytes "id", bytes "1001", bytes "10.0.0.1"⟩ (10 ^ 15 + 10 ^ 6) = none := by
  decide +kernel

end FreeSwitch.UserCache
