import Mathlib.Data.List.Basic
import Mathlib.Data.List.Forall2
import Mathlib.Data.Set.Function
import Std.Data.HashMap.Lemmas
import Shading.Code.Pool

/-!
# What a pool keeps

A pool is asked to store programs, one after another. The words that it holds only grow, and an
entry of the table is never trusted: the words at its place are compared. So every offset ever
answered leads to the words that were pushed, whatever the fingerprint is (`Pool.Sound`,
`Pool.Serves`). A collision costs room and nothing else: the later program takes over the entry, and
the earlier one is stored a second time when it comes again.

Without collisions the pool is known exactly (`Pool.Filed`): it holds the different programs in the
order of their first requests, and a program lies behind those that came before it
(`Pool.placeOf`).
-/

namespace Shading.Pool

/-- A program to be stored, as lines or encoded already. -/
inductive Request where
  | ofLines (lines : List Line)
  | ofWords (words : List UInt32)

/-- The words that a request asks to store. -/
def Request.stream : Request → Except EncodeError (List UInt32)
  | .ofLines lines => encode lines
  | .ofWords words => .ok words

/-- What is pushed in the course of some requests. -/
def streams (rs : List Request) : List (List UInt32) := rs.filterMap (·.stream.toOption)

/-- The offset of a program if the different ones lie in the order in which they came first. -/
def placeOf (ws : List (List UInt32)) (w : List UInt32) : Nat :=
  (ws.eraseDups.take (ws.eraseDups.idxOf w)).flatten.length

variable {φ : Type} [BEq φ] [Hashable φ]

/-- The answer to a request and the pool after it. -/
def request (fingerprint : List UInt32 → φ) (pool : Pool φ) : Request →
    Except EncodeError Nat × Pool φ
  | .ofLines lines => pool.push fingerprint lines
  | .ofWords words => pool.pushWords fingerprint words

/-- The answers to some requests, one after another, and the pool after them. -/
def requests (fingerprint : List UInt32 → φ) (pool : Pool φ) : List Request →
    List (Except EncodeError Nat) × Pool φ
  | [] => ([], pool)
  | r :: rs =>
    let first := pool.request fingerprint r
    let later := first.2.requests fingerprint rs
    (first.1 :: later.1, later.2)

/-- The words stand in the pool, at the offset. -/
def Holds (pool : Pool φ) (offset : Nat) (words : List UInt32) : Prop :=
  ∃ before after, pool.words.toList = before ++ words ++ after ∧ before.length = offset

/-- The answer is the offset of the words in the pool, or what stands against encoding them. -/
inductive Serves (pool : Pool φ) (r : Request) : Except EncodeError Nat → Prop
  | held {words : List UInt32} {offset : Nat} :
    r.stream = .ok words → pool.Holds offset words → Serves pool r (.ok offset)
  | refused {cause : EncodeError} : r.stream = .error cause → Serves pool r (.error cause)

/-! ### One request -/

/-- What a request can come to. -/
inductive Takes (fingerprint : List UInt32 → φ) (pool : Pool φ) (r : Request) :
    Except EncodeError Nat → Pool φ → Prop
  | refused {cause : EncodeError} : r.stream = .error cause →
    Takes fingerprint pool r (.error cause) pool
  | found {w : List UInt32} {offset : Nat} : r.stream = .ok w →
    pool.find? fingerprint w = some offset →
    Takes fingerprint pool r (.ok offset) { pool with programs := pool.programs + 1 }
  | stored {w : List UInt32} : r.stream = .ok w → pool.find? fingerprint w = none →
    pool.words.size < addressSpace →
    Takes fingerprint pool r (.ok pool.words.size)
      { words := pool.words ++ w.toArray
        known := pool.known.insert (fingerprint w) (pool.words.size, w.length)
        programs := pool.programs + 1 }
  | full {w : List UInt32} : r.stream = .ok w → pool.find? fingerprint w = none →
    addressSpace ≤ pool.words.size →
    Takes fingerprint pool r (.error .poolFull) { pool with programs := pool.programs + 1 }

section

variable {fingerprint : List UInt32 → φ} {pool pool' : Pool φ} {r : Request}
  {answer : Except EncodeError Nat} {ws : List (List UInt32)} {w : List UInt32} {offset : Nat}

/-- Words that are pushed are found, stored, or refused because the pool is full. -/
theorem takes_pushWords (h : r.stream = .ok w) :
    Takes fingerprint pool r (pool.pushWords fingerprint w).1 (pool.pushWords fingerprint w).2 := by
  have hfind : ({ pool with programs := pool.programs + 1 } : Pool φ).find? fingerprint w =
    pool.find? fingerprint w := rfl
  rw [pushWords]
  simp only [hfind]
  split
  next hfound => exact .found h hfound
  next hmissing =>
    split
    next hroom => exact .stored h hmissing hroom
    next hroom => exact .full h hmissing (Nat.le_of_not_lt hroom)

/-- Every request comes to one of the four. -/
theorem takes_request (fingerprint : List UInt32 → φ) (pool : Pool φ) (r : Request) :
    Takes fingerprint pool r (pool.request fingerprint r).1 (pool.request fingerprint r).2 := by
  cases r with
  | ofLines lines =>
    rw [request, push]
    split
    next h => exact takes_pushWords h
    next h => exact .refused h
  | ofWords words => exact takes_pushWords rfl

/-- Words are only added, at the end. -/
theorem Takes.grows (h : Takes fingerprint pool r answer pool') :
    pool.words.toList <+: pool'.words.toList := by
  cases h with
  | refused | found | full => exact List.prefix_rfl
  | stored => exact ⟨_, Array.toList_append.symm⟩

/-- What a pool holds stays where it is, whatever is requested. -/
theorem grows_requests (fingerprint : List UInt32 → φ) (pool : Pool φ) (rs : List Request) :
    pool.words.toList <+: (pool.requests fingerprint rs).2.words.toList := by
  induction rs generalizing pool with
  | nil => exact List.prefix_rfl
  | cons r rs ih => exact (takes_request fingerprint pool r).grows.trans (ih _)

/-- Requests may be answered in two parts. -/
theorem requests_append (rs ss : List Request) : pool.requests fingerprint (rs ++ ss) =
    let first := pool.requests fingerprint rs
    let later := first.2.requests fingerprint ss
    (first.1 ++ later.1, later.2) := by
  induction rs generalizing pool with
  | nil => rfl
  | cons r rs ih => rw [List.cons_append, requests, ih]; rfl

theorem streams_of_ok (h : r.stream = .ok w) : streams [r] = [w] := by
  simp [streams, h, Except.toOption]

theorem streams_of_error {cause : EncodeError} (h : r.stream = .error cause) :
    streams [r] = [] := by
  simp [streams, h, Except.toOption]

theorem streams_append (rs ss : List Request) : streams (rs ++ ss) = streams rs ++ streams ss :=
  List.filterMap_append

/-- A request that finds room is counted exactly if it is answered with an offset. -/
theorem Takes.programs_eq (h : Takes fingerprint pool r answer pool')
    (room : answer ≠ .error .poolFull) :
    pool'.programs = pool.programs + [answer].countP (·.isOk) := by
  cases h with
  | refused | found | stored => rfl
  | full => exact absurd rfl room

/-- There is room as long as the end of the words has an address. -/
theorem Takes.ne_poolFull (h : Takes fingerprint pool r answer pool')
    (encoded : r.stream ≠ .error .poolFull) (room : pool.words.size < addressSpace) :
    answer ≠ .error .poolFull := by
  cases h with
  | refused hstream =>
    rw [hstream] at encoded
    exact fun h ↦ encoded (congrArg Except.error (Except.error.inj h))
  | found | stored => simp
  | full _ _ hfull => exact absurd room (Nat.not_lt.2 hfull)

/-- A request adds its own words at most. -/
theorem Takes.size_le (h : Takes fingerprint pool r answer pool') :
    pool'.words.size ≤ pool.words.size + (streams [r]).flatten.length := by
  cases h with
  | refused | found | full => exact Nat.le_add_right _ _
  | stored hstream =>
    rw [streams_of_ok hstream, List.flatten_singleton, Array.size_append]
    exact Nat.le_refl _

/-- All requests find room if the end of the words has an address after them. -/
theorem room_of_size_lt {rs : List Request} (encoded : ∀ r ∈ rs, r.stream ≠ .error .poolFull)
    (fits : (pool.requests fingerprint rs).2.words.size < addressSpace) :
    .error .poolFull ∉ (pool.requests fingerprint rs).1 := by
  induction rs generalizing pool with
  | nil => exact List.not_mem_nil
  | cons r rs ih =>
    rw [List.forall_mem_cons] at encoded
    have hsize := (grows_requests fingerprint pool (r :: rs)).length_le
    have hfirst := (takes_request fingerprint pool r).ne_poolFull encoded.1
      (Nat.lt_of_le_of_lt hsize fits)
    exact mt List.mem_cons.1 (not_or.2 ⟨hfirst.symm, ih encoded.2 fits⟩)

/-- Requests add their words at most. -/
theorem size_requests_le (fingerprint : List UInt32 → φ) (pool : Pool φ) (rs : List Request) :
    (pool.requests fingerprint rs).2.words.size ≤
      pool.words.size + (streams rs).flatten.length := by
  induction rs generalizing pool with
  | nil => exact Nat.le_add_right _ _
  | cons r rs ih =>
    rw [← List.singleton_append, streams_append, List.flatten_append, List.length_append]
    have hfirst := (takes_request fingerprint pool r).size_le
    exact Nat.le_trans (ih (pool.request fingerprint r).2) (by omega)

/-! ### Any fingerprint -/

theorem Holds.extract (h : pool.Holds offset w) :
    (pool.words.extract offset (offset + w.length)).toList = w := by
  obtain ⟨before, after, hwords, rfl⟩ := h
  rw [Array.toList_extract, hwords, List.extract_eq_take_drop, Nat.add_sub_cancel_left,
    List.append_assoc, List.drop_left, List.take_left]

/-- A pool that grows holds what it held. -/
theorem Holds.mono (h : pool.Holds offset w) (grows : pool.words.toList <+: pool'.words.toList) :
    pool'.Holds offset w := by
  obtain ⟨before, after, hwords, hlength⟩ := h
  obtain ⟨more, hmore⟩ := grows
  exact ⟨before, after ++ more, by rw [← hmore, hwords, List.append_assoc], hlength⟩

/-- An answer stays right while the pool grows. -/
theorem Serves.mono (h : pool.Serves r answer)
    (grows : pool.words.toList <+: pool'.words.toList) : pool'.Serves r answer := by
  cases h with
  | held hstream hholds => exact .held hstream (hholds.mono grows)
  | refused hstream => exact .refused hstream

/-- What is appended stands behind what there was. -/
theorem holds_append (h : pool'.words = pool.words ++ w.toArray) :
    pool'.Holds pool.words.size w :=
  ⟨pool.words.toList, [], by rw [h, Array.toList_append, List.append_nil], Array.length_toList⟩

/-- Every entry of the table is the place of a program that was pushed. -/
def Sound (fingerprint : List UInt32 → φ) (pool : Pool φ) (ws : List (List UInt32)) : Prop :=
  ∀ f offset length, pool.known[f]? = some (offset, length) →
    ∃ w ∈ ws, fingerprint w = f ∧ w.length = length ∧ pool.Holds offset w

theorem sound_empty : Sound fingerprint {} [] := fun f offset length h ↦ by
  simp at h

/-- What is found by its fingerprint is there. -/
theorem Sound.holds_of_find? (sound : Sound fingerprint pool ws)
    (h : pool.find? fingerprint w = some offset) : pool.Holds offset w := by
  rw [find?] at h
  split at h
  next place length hknown =>
    split at h
    next hextract =>
      obtain rfl := Option.some.inj h
      obtain ⟨v, -, -, rfl, hholds⟩ := sound _ _ _ hknown
      rwa [hholds.extract.symm.trans hextract] at hholds
    · cases h
  · cases h

/-- A request that finds room is served. -/
theorem Sound.serves (sound : Sound fingerprint pool ws)
    (h : Takes fingerprint pool r answer pool') (room : answer ≠ .error .poolFull) :
    pool'.Serves r answer := by
  cases h with
  | refused hstream => exact .refused hstream
  | found hstream hfind => exact .held hstream (sound.holds_of_find? hfind)
  | stored hstream => exact .held hstream (holds_append rfl)
  | full => exact absurd rfl room

variable [LawfulBEq φ]

/-- Whatever a request comes to, what the pool knows stays right. -/
theorem Sound.step (sound : Sound fingerprint pool ws)
    (h : Takes fingerprint pool r answer pool') :
    Sound fingerprint pool' (ws ++ streams [r]) := by
  intro f offset length hknown
  have hold (hknown : pool.known[f]? = some (offset, length)) : ∃ v ∈ ws ++ streams [r],
      fingerprint v = f ∧ v.length = length ∧ pool'.Holds offset v := by
    obtain ⟨v, hv, hf, hlength, hholds⟩ := sound f offset length hknown
    exact ⟨v, List.mem_append_left _ hv, hf, hlength, hholds.mono h.grows⟩
  cases h with
  | refused | found | full => exact hold hknown
  | stored hstream =>
    rw [Std.HashMap.getElem?_insert] at hknown
    split at hknown
    next hf =>
      obtain ⟨rfl, rfl⟩ := Prod.mk.inj (Option.some.inj hknown)
      rw [streams_of_ok hstream]
      exact ⟨_, List.mem_append_right _ (List.mem_singleton_self _), eq_of_beq hf, rfl,
        holds_append rfl⟩
    · exact hold hknown

/-- If no request finds the pool full, all are answered rightly, and the pool counts those that
succeed. -/
theorem Sound.run (sound : Sound fingerprint pool ws) (rs : List Request)
    (room : .error .poolFull ∉ (pool.requests fingerprint rs).1) :
    List.Forall₂ (pool.requests fingerprint rs).2.Serves rs (pool.requests fingerprint rs).1 ∧
      (pool.requests fingerprint rs).2.programs =
        pool.programs + (pool.requests fingerprint rs).1.countP (·.isOk) := by
  induction rs generalizing pool ws with
  | nil => exact ⟨.nil, rfl⟩
  | cons r rs ih =>
    have htakes := takes_request fingerprint pool r
    obtain ⟨hfirst, hlater⟩ := not_or.1 (mt List.mem_cons.2 room)
    obtain ⟨hserves, hprograms⟩ := ih (sound.step htakes) hlater
    refine ⟨.cons ?_ hserves, ?_⟩
    · exact (sound.serves htakes (Ne.symm hfirst)).mono (grows_requests _ _ rs)
    · have hone := htakes.programs_eq (Ne.symm hfirst)
      rw [requests, List.countP_cons, hprograms, hone, List.countP_singleton]
      omega

/-! ### Without collisions -/

omit [LawfulBEq φ]

/-- What is known already adds no distinct program. -/
theorem eraseDups_concat_of_mem (h : w ∈ ws) : (ws ++ [w]).eraseDups = ws.eraseDups := by
  rw [List.eraseDups_append, List.removeAll, List.filter_cons_of_neg (by simpa using h)]
  exact List.append_nil _

/-- What is new adds one distinct program at the end. -/
theorem eraseDups_concat_of_notMem (h : w ∉ ws) :
    (ws ++ [w]).eraseDups = ws.eraseDups ++ [w] := by
  rw [List.eraseDups_append, List.removeAll, List.filter_cons_of_pos (by simpa using h)]
  rfl

/-- A program keeps its place, whatever is pushed later. -/
theorem placeOf_append (h : w ∈ ws) (more : List (List UInt32)) :
    placeOf (ws ++ more) w = placeOf ws w := by
  rw [placeOf, placeOf, List.eraseDups_append, List.idxOf_append_of_mem (List.mem_eraseDups.2 h),
    List.take_append_of_le_length List.idxOf_le_length]

/-- A program that is new lies behind all others. -/
theorem placeOf_concat (h : w ∉ ws) : placeOf (ws ++ [w]) w = ws.eraseDups.flatten.length := by
  have hnew : w ∉ ws.eraseDups := mt List.mem_eraseDups.1 h
  rw [placeOf, eraseDups_concat_of_notMem h, List.idxOf_append_of_notMem hnew,
    List.idxOf_cons_self, Nat.add_zero, List.take_left]

/-- Each of the different programs stands at its place. -/
theorem holds_placeOf (h : w ∈ ws) (words : pool.words.toList = ws.eraseDups.flatten) :
    pool.Holds (placeOf ws w) w := by
  have hlt := List.idxOf_lt_length_of_mem (List.mem_eraseDups.2 h)
  refine ⟨_, (ws.eraseDups.drop (ws.eraseDups.idxOf w + 1)).flatten, ?_, rfl⟩
  rw [words, List.append_assoc, ← List.flatten_cons, ← List.flatten_append]
  congr 1
  conv_lhs => rw [← List.take_append_drop (ws.eraseDups.idxOf w) ws.eraseDups]
  rw [List.drop_eq_getElem_cons hlt, List.getElem_idxOf]

/-- The pool consists of the different programs in the order in which they came first, and each can
be found at its place. -/
structure Filed (fingerprint : List UInt32 → φ) (pool : Pool φ) (ws : List (List UInt32)) :
    Prop where
  found : ∀ w ∈ ws, pool.known[fingerprint w]? = some (placeOf ws w, w.length)
  words : pool.words.toList = ws.eraseDups.flatten
  unique : pool.uniqueCount = ws.eraseDups.length

theorem filed_empty : Filed fingerprint {} [] :=
  ⟨List.forall_mem_nil _, rfl, Std.HashMap.size_empty⟩

/-- A program that is filed is found at its place. -/
theorem Filed.find? (filed : Filed fingerprint pool ws) (h : w ∈ ws) :
    pool.find? fingerprint w = some (placeOf ws w) := by
  rw [Pool.find?, filed.found w h]
  exact if_pos (holds_placeOf h filed.words).extract

/-- A known program changes nothing but the number of programs. -/
theorem Filed.keep (filed : Filed fingerprint pool ws) (h : w ∈ ws) (n : Nat) :
    Filed fingerprint { pool with programs := n } (ws ++ [w]) := by
  refine ⟨fun v hv ↦ ?_, ?_, ?_⟩
  · have hv : v ∈ ws := (List.mem_append.1 hv).elim id fun hv ↦ List.mem_singleton.1 hv ▸ h
    rw [placeOf_append hv]
    exact filed.found v hv
  · rw [eraseDups_concat_of_mem h]
    exact filed.words
  · rw [eraseDups_concat_of_mem h]
    exact filed.unique

/-- Without collisions, a program that is new has no entry. -/
theorem Sound.known_eq_none (sound : Sound fingerprint pool ws)
    (apart : Set.InjOn fingerprint {v | v ∈ ws ++ [w]}) (h : w ∉ ws) :
    pool.known[fingerprint w]? = none := by
  refine Option.eq_none_iff_forall_ne_some.2 fun ⟨offset, length⟩ hknown ↦ ?_
  obtain ⟨v, hv, hf, -, -⟩ := sound _ offset length hknown
  have heq : v = w := apart (List.mem_append_left _ hv) (by simp) hf
  exact h (heq ▸ hv)

variable [LawfulBEq φ]

/-- A new program is filed behind all others, if no other one has its fingerprint. -/
theorem Filed.store (filed : Filed fingerprint pool ws)
    (apart : Set.InjOn fingerprint {v | v ∈ ws ++ [w]}) (h : w ∉ ws)
    (fresh : pool.known[fingerprint w]? = none) (n : Nat) :
    Filed fingerprint
      { words := pool.words ++ w.toArray
        known := pool.known.insert (fingerprint w) (pool.words.size, w.length)
        programs := n } (ws ++ [w]) := by
  have hsize : pool.words.size = ws.eraseDups.flatten.length := by
    rw [← filed.words, Array.length_toList]
  refine ⟨fun v hv ↦ ?_, ?_, ?_⟩
  · rw [Std.HashMap.getElem?_insert]
    split
    next heq =>
      obtain rfl := apart (by simp) hv (eq_of_beq heq)
      rw [placeOf_concat h, hsize]
    next hne =>
      have hv : v ∈ ws := (List.mem_append.1 hv).elim id fun hv ↦
        absurd (beq_iff_eq.2 (congrArg fingerprint (List.mem_singleton.1 hv).symm)) hne
      rw [placeOf_append hv]
      exact filed.found v hv
  · rw [Array.toList_append, filed.words, eraseDups_concat_of_notMem h, List.flatten_append,
      List.flatten_singleton]
  · have hnew : fingerprint w ∉ pool.known := by
      rw [Std.HashMap.mem_iff_isSome_getElem?, fresh]
      exact Bool.false_ne_true
    rw [uniqueCount, Std.HashMap.size_insert, if_neg hnew, eraseDups_concat_of_notMem h,
      List.length_append]
    exact congrArg (· + 1) filed.unique

/-- A request that finds room is answered with the place of its program. -/
theorem Filed.step (filed : Filed fingerprint pool ws) (sound : Sound fingerprint pool ws)
    (h : Takes fingerprint pool r answer pool') (room : answer ≠ .error .poolFull)
    (apart : Set.InjOn fingerprint {v | v ∈ ws ++ streams [r]}) :
    Filed fingerprint pool' (ws ++ streams [r]) ∧
      answer = r.stream.map (placeOf (ws ++ streams [r])) := by
  cases h with
  | refused hstream =>
    rw [streams_of_error hstream, hstream, List.append_nil]
    exact ⟨filed, rfl⟩
  | @found w offset hstream hfind =>
    rw [streams_of_ok hstream] at apart ⊢
    have hw : w ∈ ws := by
      by_contra hw
      rw [Pool.find?, sound.known_eq_none apart hw] at hfind
      cases hfind
    rw [filed.find? hw] at hfind
    obtain rfl := Option.some.inj hfind
    refine ⟨filed.keep hw _, ?_⟩
    rw [hstream, ← placeOf_append hw [w]]
    rfl
  | @stored w hstream hfind =>
    rw [streams_of_ok hstream] at apart ⊢
    have hw : w ∉ ws := fun hw ↦ by
      rw [filed.find? hw] at hfind
      cases hfind
    refine ⟨filed.store apart hw (sound.known_eq_none apart hw) _, ?_⟩
    rw [hstream, Except.map, placeOf_concat hw, ← filed.words, Array.length_toList]
  | full => exact absurd rfl room

/-- Where fingerprints tell programs apart, requests are answered with the places of their programs.
-/
theorem Filed.run (filed : Filed fingerprint pool ws) (sound : Sound fingerprint pool ws)
    (rs : List Request) (room : .error .poolFull ∉ (pool.requests fingerprint rs).1)
    (apart : Set.InjOn fingerprint {v | v ∈ ws ++ streams rs}) :
    Filed fingerprint (pool.requests fingerprint rs).2 (ws ++ streams rs) ∧
      (pool.requests fingerprint rs).1 = rs.map (·.stream.map (placeOf (ws ++ streams rs))) := by
  induction rs generalizing pool ws with
  | nil => exact ⟨by rwa [streams, List.filterMap_nil, List.append_nil], rfl⟩
  | cons r rs ih =>
    have htakes := takes_request fingerprint pool r
    obtain ⟨hfirst, hlater⟩ := not_or.1 (mt List.mem_cons.2 room)
    have hws : ws ++ streams (r :: rs) = ws ++ streams [r] ++ streams rs := by
      rw [List.append_assoc, ← streams_append, List.singleton_append]
    rw [hws] at apart ⊢
    obtain ⟨hfiled, hanswer⟩ := filed.step sound htakes (Ne.symm hfirst)
      (apart.mono fun v hv ↦ List.mem_append_left _ hv)
    obtain ⟨hfiled, hanswers⟩ := ih hfiled (sound.step htakes) hlater apart
    -- The place that was answered is not moved by what comes later.
    have hplace : r.stream.map (placeOf (ws ++ streams [r])) =
        r.stream.map (placeOf (ws ++ streams [r] ++ streams rs)) := by
      cases hstream : r.stream with
      | error cause => rfl
      | ok w =>
        have hw : w ∈ ws ++ streams [r] := by simp [streams_of_ok hstream]
        exact congrArg Except.ok (placeOf_append hw _).symm
    exact ⟨hfiled, List.cons_eq_cons.2 ⟨hanswer.trans hplace, hanswers⟩⟩

end

/-- Requests that all find room (`room_of_size_lt`) are served with places that hold their programs
for good, and each one served is counted. If moreover no two of the programs share a fingerprint,
the pool consists of the different programs in the order in which they came first, and equal
programs share a place. -/
theorem requests_served [LawfulBEq φ] (fingerprint : List UInt32 → φ) (rs : List Request)
    (room : .error .poolFull ∉ (requests fingerprint {} rs).1) :
    (∀ earlier later, rs = earlier ++ later →
      List.Forall₂ (requests fingerprint {} rs).2.Serves earlier
        (requests fingerprint {} earlier).1) ∧
    (requests fingerprint {} rs).2.programs =
      (requests fingerprint {} rs).1.countP (·.isOk) ∧
    (Set.InjOn fingerprint {w | w ∈ streams rs} →
      (requests fingerprint {} rs).1 = rs.map (·.stream.map (placeOf (streams rs))) ∧
      (requests fingerprint {} rs).2.words.toList = (streams rs).eraseDups.flatten ∧
      (requests fingerprint {} rs).2.uniqueCount = (streams rs).eraseDups.length) := by
  obtain ⟨-, hprograms⟩ := sound_empty.run rs room
  refine ⟨fun earlier later hrs ↦ ?_, hprograms.trans (Nat.zero_add _), fun apart ↦ ?_⟩
  · rw [hrs, requests_append, List.mem_append, not_or] at room
    rw [hrs, requests_append]
    exact (sound_empty.run earlier room.1).1.imp fun _ _ h ↦ h.mono (grows_requests _ _ later)
  · obtain ⟨hfiled, hanswers⟩ := filed_empty.run sound_empty rs room apart
    exact ⟨hanswers, hfiled.words, hfiled.unique⟩

/-- Three requests for two programs, and one for a program that cannot be encoded. -/
theorem requests_served_repeated :
    let rs : List Request := [.ofWords [7, 8], .ofWords [9], .ofWords [7, 8], .ofLines []]
    let answers : List (Except EncodeError Nat) := [.ok 0, .ok 2, .ok 0, .error .noExit]
    .error .poolFull ∉ (requests id {} rs).1 ∧ Set.InjOn id {w | w ∈ streams rs} ∧
      (requests id {} rs).1 = answers ∧ (requests id {} rs).2.words.toList = [7, 8, 9] ∧
      (requests id {} rs).2.programs = 3 ∧ (requests id {} rs).2.uniqueCount = 2 := by
  intro rs answers
  have room : .error .poolFull ∉ (requests id {} rs).1 :=
    room_of_size_lt (by decide) (Nat.lt_of_le_of_lt (size_requests_le _ _ rs) (by decide))
  have apart : Set.InjOn id {w | w ∈ streams rs} := Function.injective_id.injOn
  obtain ⟨-, hprograms, hfiled⟩ := requests_served id rs room
  obtain ⟨hanswers, hwords, hunique⟩ := hfiled apart
  have hanswers : (requests id {} rs).1 = answers := hanswers.trans (by decide)
  rw [hanswers] at hprograms
  exact ⟨room, apart, hanswers, hwords, hprograms, hunique⟩

end Shading.Pool
