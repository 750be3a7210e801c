import Mathlib
import ZigMarkup.Cache
import ZigMarkup.Proofs.Cuts

/-!
One cache that any number of callers share. A call looks its key up, computes on a miss and
inserts what it computed; other calls and clearings fall between these steps in any order. The
key tells options and source, so whatever the order, a call answers what compiling its own
source under its own options gives, and the entries never outgrow the capacity.
-/
namespace ZigMarkup

/-- No string among the options holds a zero character. -/
def Options.NulFree (options : Options) : Prop :=
  ∀ text ∈ [options.filename, options.runtime, options.runtimeModule, options.defaultAllocator],
    '\x00' ∉ text.toList

instance (options : Options) : Decidable options.NulFree :=
  inferInstanceAs (Decidable (∀ text ∈ _, _))

/-- Two lists agree up to the first place of an element, and behind it. -/
theorem append_cons_inj_of_first {α : Type} {x : α} {a b u v : List α} (ha : x ∉ a) (hb : x ∉ b)
    (h : a ++ x :: u = b ++ x :: v) : a = b ∧ u = v := by
  induction a generalizing b with
  | nil =>
    cases b with
    | nil => simpa using h
    | cons y b =>
      obtain ⟨rfl, -⟩ := List.cons.inj h
      exact absurd List.mem_cons_self hb
  | cons y a ih =>
    cases b with
    | nil =>
      obtain ⟨rfl, -⟩ := List.cons.inj h
      exact absurd List.mem_cons_self ha
    | cons z b =>
      obtain ⟨rfl, hrest⟩ := List.cons.inj h
      obtain ⟨rfl, hbehind⟩ := ih (List.not_mem_of_not_mem_cons ha)
        (List.not_mem_of_not_mem_cons hb) hrest
      exact ⟨rfl, hbehind⟩

namespace Options

theorem boolText_inj {a b : Bool} (h : boolText a = boolText b) : a = b := by
  revert a b
  decide

theorem nul_not_mem_repr (n : Nat) : '\x00' ∉ n.repr.toList := by
  intro hmem
  rw [Nat.repr_eq_ofList_toDigits, String.toList_ofList] at hmem
  exact absurd (Nat.isDigit_of_mem_toDigits (by decide) (by decide) hmem) (by decide)

theorem toList_fingerprint (o : Options) : o.fingerprint.toList =
    "file=".toList ++ (o.filename.toList ++ '\x00' :: ("runtime=".toList ++
      (o.runtime.toList ++ '\x00' :: ("module=".toList ++ (o.runtimeModule.toList ++
      '\x00' :: ("alloc=".toList ++ (o.defaultAllocator.toList ++ '\x00' :: ("indent=".toList ++
      (o.indentWidth.repr.toList ++ '\x00' :: ("import=".toList ++
      (boolText o.injectImport).toList)))))))))) := by
  delta fingerprint
  simp only [String.toList_append, List.append_assoc]
  rfl

/-- A named part of a fingerprint is read off up to the zero character behind it. -/
private theorem part_inj {name a b : String} {u v : List Char} (ha : '\x00' ∉ a.toList)
    (hb : '\x00' ∉ b.toList)
    (h : name.toList ++ (a.toList ++ '\x00' :: u) = name.toList ++ (b.toList ++ '\x00' :: v)) :
    a = b ∧ u = v := by
  obtain ⟨hpart, hbehind⟩ := append_cons_inj_of_first ha hb (List.append_cancel_left h)
  exact ⟨String.toList_inj.mp hpart, hbehind⟩

/-- The fingerprint tells apart any two sets of options without zero characters. -/
theorem fingerprint_inj {o o' : Options} (ho : o.NulFree) (ho' : o'.NulFree)
    (h : o.fingerprint = o'.fingerprint) : o = o' := by
  simp only [NulFree, List.forall_mem_cons] at ho ho'
  rw [← String.toList_inj, toList_fingerprint, toList_fingerprint] at h
  obtain ⟨hfilename, h⟩ := part_inj ho.1 ho'.1 h
  obtain ⟨hruntime, h⟩ := part_inj ho.2.1 ho'.2.1 h
  obtain ⟨hmodule, h⟩ := part_inj ho.2.2.1 ho'.2.2.1 h
  obtain ⟨hallocator, h⟩ := part_inj ho.2.2.2.1 ho'.2.2.2.1 h
  obtain ⟨hindent, h⟩ := part_inj (nul_not_mem_repr _) (nul_not_mem_repr _) h
  have hwidth := Nat.repr_inj.mp hindent
  have himport := boolText_inj (String.toList_inj.mp (List.append_cancel_left h))
  cases o
  cases o'
  simp_all

end Options

/-- The byte that divides a key is in no text. -/
theorem ff_not_mem_utf8 (s : String) : (0xFF : UInt8) ∉ utf8 s := by
  intro hmem
  obtain ⟨c, -, hc⟩ := List.mem_flatMap.mp hmem
  have hval : c.val.toNat < 0x110000 := by
    rcases c.valid with h | h
    · omega
    · exact h.2
  have hbelow : ∀ b ∈ String.utf8EncodeChar c, b.toNat < 255 := by
    intro b hb
    unfold String.utf8EncodeChar at hb
    dsimp only at hb
    split_ifs at hb
    all_goals simp only [List.mem_cons, List.not_mem_nil, or_false] at hb
    · rw [hb, UInt8.toNat_ofNat']
      omega
    · rcases hb with rfl | rfl <;> rw [UInt8.toNat_ofNat'] <;> omega
    · rcases hb with rfl | rfl | rfl <;> rw [UInt8.toNat_ofNat'] <;> omega
    · rcases hb with rfl | rfl | rfl | rfl <;> rw [UInt8.toNat_ofNat'] <;> omega
  exact absurd (hbelow _ hc) (by decide)

namespace Cache

/-- What a call asks for. -/
structure Request where
  options : Options
  source : String
deriving DecidableEq

def Request.key (request : Request) : Bytes := Cache.key request.options request.source

def Request.result (request : Request) : Checked Compiled :=
  ZigMarkup.compile request.options request.source

theorem Request.key_inj {r r' : Request} (hr : r.options.NulFree) (hr' : r'.options.NulFree)
    (h : r.key = r'.key) : r = r' := by
  simp only [Request.key, Cache.key, List.append_assoc, List.singleton_append] at h
  obtain ⟨hoptions, hsource⟩ :=
    append_cons_inj_of_first (ff_not_mem_utf8 _) (ff_not_mem_utf8 _) h
  have hoptions := Options.fingerprint_inj hr hr' (utf8_inj hoptions)
  have hsource := utf8_inj hsource
  cases r
  cases r'
  simp_all

/-- How far a call has come. -/
inductive Progress where
  | asked
  | missed
  | computed (entry : Cached)
  | answered (entry : Cached)

structure Call where
  request : Request
  progress : Progress

/-- A cache and the calls made on it so far. -/
structure Shared where
  cache : Cache
  calls : List Call

/-- A caller comes, one of the calls takes its next step, or the cache is cleared. -/
inductive Event where
  | ask (request : Request)
  | advance (call : Nat)
  | clear
deriving DecidableEq

def Event.request? : Event → Option Request
  | .ask request => some request
  | _ => none

/-- One step of a call: it looks up, computes or inserts. Entries are kept under digests of keys. -/
def Call.next (digest : Bytes → Bytes) (call : Call) (cache : Cache) : Call × Cache :=
  match call.progress with
  | .asked =>
    match cache.find? (digest call.request.key) with
    | some entry => ({ call with progress := .answered entry }, cache)
    | none => ({ call with progress := .missed }, cache)
  | .missed =>
    let entry : Cached := ⟨cache.computed, call.request.result⟩
    ({ call with progress := .computed entry }, { cache with computed := cache.computed + 1 })
  | .computed entry =>
    ({ call with progress := .answered entry }, cache.insert (digest call.request.key) entry)
  | .answered _ => (call, cache)

namespace Shared

def start (capacity : Nat) : Shared := ⟨.ofCapacity capacity, []⟩

def step (digest : Bytes → Bytes) (shared : Shared) : Event → Shared
  | .ask request => { shared with calls := shared.calls ++ [⟨request, .asked⟩] }
  | .advance i =>
    match shared.calls[i]? with
    | some call =>
      let (call, cache) := call.next digest shared.cache
      ⟨cache, shared.calls.set i call⟩
    | none => shared
  | .clear => { shared with cache := shared.cache.clear }

def run (digest : Bytes → Bytes) (shared : Shared) (events : List Event) : Shared :=
  events.foldl (step digest) shared

theorem run_append (digest : Bytes → Bytes) (shared : Shared) (earlier later : List Event) :
    shared.run digest (earlier ++ later) = (shared.run digest earlier).run digest later :=
  List.foldl_append

/-- A call that no other one meets is `Cache.compile`. -/
theorem run_alone (shared : Shared) (request : Request) :
    let i := shared.calls.length
    shared.run id [.ask request, .advance i, .advance i, .advance i] =
      ⟨(shared.cache.compile request.options request.source).2, shared.calls ++
        [⟨request, .answered (shared.cache.compile request.options request.source).1⟩]⟩ := by
  cases hfind : shared.cache.find? request.key with
  | some entry =>
    have hfind' : shared.cache.find? (Cache.key request.options request.source) = some entry :=
      hfind
    simp [run, step, Call.next, Cache.compile, hfind, hfind']
  | none =>
    have hfind' : shared.cache.find? (Cache.key request.options request.source) = none := hfind
    simp [run, step, Call.next, Cache.compile, Request.key, Request.result, hfind']

end Shared

variable {digest : Bytes → Bytes}

/-- Every entry is the result of a request with that key, and the entries have room. -/
structure Sound (digest : Bytes → Bytes) (capacity : Nat) (cache : Cache) : Prop where
  capacity_eq : cache.capacity = max capacity 1
  bounded : cache.size ≤ max capacity 1
  entries : ∀ key entry, cache.find? key = some entry → ∃ request : Request,
    request.options.NulFree ∧ key = digest request.key ∧ entry.result = request.result

theorem sound_ofCapacity (capacity : Nat) : Sound digest capacity (ofCapacity capacity) where
  capacity_eq := rfl
  bounded := by simp [size, ofCapacity]
  entries key entry h := by simp [find?, ofCapacity] at h

namespace Sound

variable {capacity : Nat} {cache : Cache}

theorem clear (h : Sound digest capacity cache) : Sound digest capacity cache.clear where
  capacity_eq := h.capacity_eq
  bounded := by simp [size, Cache.clear]
  entries key entry hfind := by simp [find?, Cache.clear] at hfind

/-- A cache that takes an entry for its own request stays sound where it has room left. -/
private theorem insert_of_room (h : Sound digest capacity cache) {request : Request}
    {entry : Cached} (hnul : request.options.NulFree) (hentry : entry.result = request.result)
    (hroom : cache.size < max capacity 1) : Sound digest capacity
      { cache with entries := cache.entries.insert (digest request.key) entry } where
  capacity_eq := h.capacity_eq
  bounded := by
    have hsize : (cache.entries.insert (digest request.key) entry).size ≤ cache.entries.size + 1 :=
      Std.HashMap.size_insert_le
    exact hsize.trans hroom
  entries key found hfind := by
    simp only [find?, Std.HashMap.getElem?_insert] at hfind
    by_cases hkey : digest request.key = key
    · rw [if_pos (by simpa using hkey)] at hfind
      exact ⟨request, hnul, hkey.symm, Option.some.inj hfind ▸ hentry⟩
    · rw [if_neg (by simpa using hkey)] at hfind
      exact h.entries key found hfind

theorem insert (h : Sound digest capacity cache) {request : Request} {entry : Cached}
    (hnul : request.options.NulFree) (hentry : entry.result = request.result) :
    Sound digest capacity (cache.insert (digest request.key) entry) := by
  unfold Cache.insert
  split
  · exact h
  · have hcapacity := h.capacity_eq
    dsimp only
    split
    · -- A cleared cache has room, because its capacity is at least one.
      refine h.clear.insert_of_room hnul hentry ?_
      rw [show cache.clear.size = 0 by simp [size, Cache.clear]]
      omega
    · exact h.insert_of_room hnul hentry (by omega)

/-- A hit is the answer to the request that looks it up: its key leads to no other request. -/
theorem result_of_find? (h : Sound digest capacity cache) (hdigest : Function.Injective digest)
    {request : Request} {entry : Cached} (hnul : request.options.NulFree)
    (hfind : cache.find? (digest request.key) = some entry) : entry.result = request.result := by
  obtain ⟨other, hother, hkey, hresult⟩ := h.entries _ _ hfind
  rw [Request.key_inj hnul hother (hdigest hkey)]
  exact hresult

end Sound

/-- What a call holds, once it holds an entry, answers its request. -/
structure Call.Sound (call : Call) : Prop where
  nulFree : call.request.options.NulFree
  result : ∀ entry, call.progress = .computed entry ∨ call.progress = .answered entry →
    entry.result = call.request.result

theorem Call.sound_next (hdigest : Function.Injective digest) {capacity : Nat} {cache : Cache}
    {call : Call} (hcache : cache.Sound digest capacity) (hcall : call.Sound) :
    (call.next digest cache).1.Sound ∧ (call.next digest cache).2.Sound digest capacity := by
  obtain ⟨request, progress⟩ := call
  have hnul := hcall.nulFree
  cases progress with
  | asked =>
    simp only [Call.next]
    cases hfind : cache.find? (digest request.key) with
    | some entry =>
      have hresult := hcache.result_of_find? hdigest hnul hfind
      exact ⟨⟨hnul, by rintro _ (h | h) <;> cases h; exact hresult⟩, hcache⟩
    | none => exact ⟨⟨hnul, by rintro _ (h | h) <;> cases h⟩, hcache⟩
  | missed =>
    refine ⟨⟨hnul, ?_⟩, ⟨hcache.capacity_eq, hcache.bounded, hcache.entries⟩⟩
    rintro _ (h | h) <;> cases h
    rfl
  | computed entry =>
    have hresult := hcall.result entry (.inl rfl)
    refine ⟨⟨hnul, ?_⟩, hcache.insert hnul hresult⟩
    rintro _ (h | h) <;> cases h
    exact hresult
  | answered entry => exact ⟨hcall, hcache⟩

namespace Shared

structure Sound (digest : Bytes → Bytes) (capacity : Nat) (shared : Shared) : Prop where
  cache : shared.cache.Sound digest capacity
  calls : ∀ call ∈ shared.calls, call.Sound

theorem sound_step (hdigest : Function.Injective digest) {capacity : Nat} {shared : Shared}
    (h : shared.Sound digest capacity) {event : Event}
    (hnul : ∀ request, event = .ask request → request.options.NulFree) :
    (shared.step digest event).Sound digest capacity := by
  cases event with
  | ask request =>
    refine ⟨h.cache, fun call hcall => ?_⟩
    rcases List.mem_append.mp hcall with hold | hnew
    · exact h.calls call hold
    · rw [List.mem_singleton.mp hnew]
      exact ⟨hnul request rfl, by rintro _ (h | h) <;> cases h⟩
  | advance i =>
    simp only [step]
    cases hi : shared.calls[i]? with
    | none => exact h
    | some call =>
      obtain ⟨hnext, hcache⟩ :=
        Call.sound_next hdigest h.cache (h.calls call (List.mem_of_getElem? hi))
      refine ⟨hcache, fun other hother => ?_⟩
      rcases List.mem_or_eq_of_mem_set hother with hold | rfl
      · exact h.calls other hold
      · exact hnext
  | clear => exact ⟨h.cache.clear, h.calls⟩

theorem sound_run (hdigest : Function.Injective digest) {capacity : Nat} {shared : Shared}
    (h : shared.Sound digest capacity) {events : List Event}
    (hnul : ∀ request, .ask request ∈ events → request.options.NulFree) :
    (shared.run digest events).Sound digest capacity := by
  induction events generalizing shared with
  | nil => exact h
  | cons event events ih =>
    have hstep := sound_step hdigest h fun request heq => hnul request (heq ▸ List.mem_cons_self)
    exact ih hstep fun request hmem => hnul request (List.mem_cons_of_mem _ hmem)

end Shared

/-- How many steps a call may still take. -/
def Progress.stepsLeft : Progress → Nat
  | .asked => 3
  | .missed => 2
  | .computed _ => 1
  | .answered _ => 0

theorem Progress.stepsLeft_le (progress : Progress) : progress.stepsLeft ≤ 3 := by
  cases progress <;> simp [stepsLeft]

theorem Progress.answered_of_stepsLeft {progress : Progress} (h : progress.stepsLeft = 0) :
    ∃ entry, progress = .answered entry := by
  cases progress with
  | answered entry => exact ⟨entry, rfl⟩
  | _ => simp [stepsLeft] at h

theorem Call.stepsLeft_next (call : Call) (cache : Cache) :
    (call.next digest cache).1.progress.stepsLeft ≤ call.progress.stepsLeft - 1 := by
  obtain ⟨request, progress⟩ := call
  cases progress with
  | asked =>
    simp only [Call.next]
    split <;> simp [Progress.stepsLeft]
  | _ => simp [Call.next, Progress.stepsLeft]

theorem Call.request_next (call : Call) (cache : Cache) :
    (call.next digest cache).1.request = call.request := by
  unfold Call.next
  split
  · split <;> rfl
  all_goals rfl

namespace Shared

theorem requests_step (shared : Shared) (event : Event) :
    (shared.step digest event).calls.map Call.request =
      shared.calls.map Call.request ++ event.request?.toList := by
  cases event with
  | ask request => simp [step, Event.request?]
  | clear => simp [step, Event.request?]
  | advance i =>
    simp only [step, Event.request?, Option.toList_none, List.append_nil]
    cases hi : shared.calls[i]? with
    | none => rfl
    | some call =>
      dsimp only
      have hrequest : (shared.calls.map Call.request)[i]? = some call.request := by
        rw [List.getElem?_map, hi, Option.map_some]
      rw [List.map_set, Call.request_next]
      apply List.ext_getElem?
      intro j
      rw [List.getElem?_set]
      split
      · subst j
        rw [if_pos (List.getElem?_eq_some_iff.mp hrequest).1, hrequest]
      · rfl

/-- The calls are the requests made, in their order. -/
theorem requests_run (shared : Shared) (events : List Event) :
    (shared.run digest events).calls.map Call.request =
      shared.calls.map Call.request ++ events.filterMap Event.request? := by
  induction events generalizing shared with
  | nil => simp [run]
  | cons event events ih =>
    have hrest := ih (shared.step digest event)
    rw [requests_step] at hrest
    rw [show shared.run digest (event :: events) = (shared.step digest event).run digest events
      from rfl, hrest]
    cases hrequest : event.request? with
    | none => simp [List.filterMap_cons_none hrequest]
    | some request => simp [List.filterMap_cons_some hrequest]

/-- An event leaves a call where it is or, if it is the call's own, brings it one step on. -/
theorem call_step (digest : Bytes → Bytes) {shared : Shared} {i : Nat} {call : Call} (hcall : shared.calls[i]? = some call)
    (event : Event) : ∃ next, (shared.step digest event).calls[i]? = some next ∧
      next.progress.stepsLeft ≤ call.progress.stepsLeft - [event].count (.advance i) := by
  cases event with
  | ask request =>
    refine ⟨call, ?_, by simp⟩
    simp only [step]
    rw [List.getElem?_append_left (List.getElem?_eq_some_iff.mp hcall).1]
    exact hcall
  | clear => exact ⟨call, hcall, by simp⟩
  | advance j =>
    simp only [step]
    cases hj : shared.calls[j]? with
    | none =>
      have hne : j ≠ i := by
        rintro rfl
        simp [hcall] at hj
      exact ⟨call, hcall, by simp [hne]⟩
    | some moved =>
      dsimp only
      by_cases hij : j = i
      · subst j
        obtain rfl : call = moved := Option.some.inj (hcall.symm.trans hj)
        refine ⟨(call.next digest shared.cache).1, ?_, ?_⟩
        · rw [List.getElem?_set_self (List.getElem?_eq_some_iff.mp hcall).1]
        · simpa using call.stepsLeft_next shared.cache
      · refine ⟨call, ?_, by simp [hij]⟩
        rw [List.getElem?_set_ne hij]
        exact hcall

theorem call_run (digest : Bytes → Bytes) {shared : Shared} {i : Nat} {call : Call} (hcall : shared.calls[i]? = some call)
    (events : List Event) : ∃ last, (shared.run digest events).calls[i]? = some last ∧
      last.progress.stepsLeft ≤ call.progress.stepsLeft - events.count (.advance i) := by
  induction events generalizing shared call with
  | nil => exact ⟨call, hcall, by simp⟩
  | cons event events ih =>
    obtain ⟨next, hnext, hstep⟩ := call_step digest hcall event
    obtain ⟨last, hlast, hrun⟩ := ih hnext
    refine ⟨last, hlast, ?_⟩
    have hcount : (event :: events).count (.advance i) =
      [event].count (.advance i) + events.count (.advance i) := by
      rw [← List.count_append, List.singleton_append]
    omega

end Shared

/-- Any number of calls on one cache, their steps and clearings in any order: the entries have
room, each call is for what was asked, and it answers what compiling that gives once it has
taken its three steps. The key tells options and source. -/
theorem shared_calls_transparent (hdigest : Function.Injective digest) (capacity : Nat)
    (events : List Event)
    (hnul : ∀ request, .ask request ∈ events → request.options.NulFree) :
    let shared := (Shared.start capacity).run digest events
    shared.cache.size ≤ max capacity 1 ∧
    shared.calls.map Call.request = events.filterMap Event.request? ∧
    (∀ call ∈ shared.calls, ∀ entry, call.progress = .answered entry →
      entry.result = ZigMarkup.compile call.request.options call.request.source) ∧
    (∀ earlier later i, events = earlier ++ later →
      i < ((Shared.start capacity).run digest earlier).calls.length →
      3 ≤ later.count (.advance i) →
      ∃ call entry, shared.calls[i]? = some call ∧ call.progress = .answered entry) ∧
    ∀ options options' source source', options.NulFree → options'.NulFree →
      key options source = key options' source' → options = options' ∧ source = source' := by
  intro shared
  have hsound : shared.Sound digest capacity :=
    Shared.sound_run hdigest ⟨sound_ofCapacity capacity, by simp [Shared.start]⟩ hnul
  refine ⟨hsound.cache.bounded, Shared.requests_run _ events, ?_, ?_, ?_⟩
  · intro call hcall entry hentry
    exact (hsound.calls call hcall).result entry (.inr hentry)
  · intro earlier later i heq hi hsteps
    obtain ⟨last, hlast, hleft⟩ :=
      Shared.call_run digest (List.getElem?_eq_getElem hi) later
    rw [← Shared.run_append, ← heq] at hlast
    have hstart := (((Shared.start capacity).run digest earlier).calls[i]).progress.stepsLeft_le
    obtain ⟨entry, hentry⟩ := Progress.answered_of_stepsLeft (Nat.eq_zero_of_le_zero (hleft.trans (by omega)))
    exact ⟨last, entry, hlast, hentry⟩
  · intro options options' source source' hoptions hoptions' hkey
    have hsame : (⟨options, source⟩ : Request) = ⟨options', source'⟩ :=
      Request.key_inj hoptions hoptions' hkey
    exact Request.mk.inj hsame

/-- Two callers race for one key in a cache of one entry, which is cleared before the second
inserts. -/
theorem shared_calls_transparent_race :
    let request : Request := ⟨{}, "(<br/>)"⟩
    let events : List Event := [.ask request, .ask request, .advance 0, .advance 1, .advance 1,
      .advance 0, .advance 0, .clear, .advance 1]
    Function.Injective (id : Bytes → Bytes) ∧
    (∀ request, .ask request ∈ events → request.options.NulFree) ∧
    ∃ call entry, ((Shared.start 0).run id events).calls[1]? = some call ∧
      call.progress = .answered entry ∧
      entry.result = ZigMarkup.compile call.request.options call.request.source := by
  intro request events
  have hnul : ∀ request, .ask request ∈ events → request.options.NulFree := by
    intro asked hmem
    simp only [events, List.mem_cons, Event.ask.injEq, reduceCtorEq, List.not_mem_nil, or_false,
      or_self] at hmem
    rw [hmem]
    decide
  obtain ⟨-, -, hresult, hanswer, -⟩ :=
    shared_calls_transparent Function.injective_id 0 events hnul
  obtain ⟨call, entry, hcall, hentry⟩ := hanswer (events.take 2) (events.drop 2) 1 rfl
    (by decide) (by decide)
  exact ⟨Function.injective_id, hnul, call, entry, hcall, hentry,
    hresult call (List.mem_of_getElem? hcall) entry hentry⟩

end Cache

end ZigMarkup
