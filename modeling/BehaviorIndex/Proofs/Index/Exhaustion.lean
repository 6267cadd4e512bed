import BehaviorIndex.Proofs.Files.Path
import BehaviorIndex.Proofs.Index.Registry
import Mathlib.Data.List.Induction
import Mathlib.Data.List.Nodup

/-!
# When the numbers of files run out

The counter of the registry moves with every call on a path that has no number yet; such a call
*draws*. So the state of a registry is told by how often it has drawn (`Drawn`):

* up to `idCount` draws, each gives a path the next free number;
* the draw after that finds the counter at zero and gives no number;
* the one after that finds the counter at one, and the number one is taken.

**Theorem (`faithful_registerAll_iff`).** After any sequence of calls, the paths that have numbers
have different ones, and each is found again under its number, exactly if the calls have drawn at
most `UInt32.size` times. A call is refused exactly if it draws and the counter stands at zero. A
refused call changes neither direction, and a path keeps its first number for ever. But a refused
call moves the counter, so the next draw is not refused.

**Refutation (`shared_number_letteredPaths`).** With one path more than there are values of 32 bits,
the first path and the last one share the number one.
-/

namespace BehaviorIndex.Registry

open Std

/-! ## Sequences of calls -/

/-- The registry after a sequence of calls. -/
def registerAll (r : Registry) (calls : List Path) : Registry :=
  calls.foldl (fun r p => (r.register p).1) r

/-- How many of the calls are on a path that has no number when it is called for. -/
def draws (r : Registry) : List Path → Nat
  | [] => 0
  | p :: calls => (if (r.id? p).isNone then 1 else 0) + (r.register p).1.draws calls

theorem registerAll_append (r : Registry) (calls more : List Path) :
    r.registerAll (calls ++ more) = (r.registerAll calls).registerAll more :=
  List.foldl_append

/-- A path keeps its number, whatever is called. -/
theorem id?_registerAll_of_some {r : Registry} {p : Path} {id : FileId} (h : r.id? p = some id)
    (calls : List Path) : (r.registerAll calls).id? p = some id := by
  induction calls generalizing r with
  | nil => exact h
  | cons q calls ih => exact ih (id?_register_of_some h q)

theorem register_of_id? {r : Registry} {p : Path} {id : FileId} (h : r.id? p = some id) :
    r.register p = (r, some id) := by
  rw [register, h]

theorem register_of_next_ne_zero {r : Registry} {p : Path} (hnone : r.id? p = none)
    (hnext : r.next ≠ 0) :
    r.register p = ({ byPath := r.byPath.insert p.normal ⟨r.next⟩
                      byId := r.byId.insert r.next p
                      next := r.next + 1 }, some ⟨r.next⟩) := by
  rw [register, hnone, FileId.ofValue?, if_neg hnext]

theorem register_of_next_eq_zero {r : Registry} {p : Path} (hnone : r.id? p = none)
    (hnext : r.next = 0) : r.register p = ({ r with next := r.next + 1 }, none) := by
  rw [register, hnone, FileId.ofValue?, if_pos hnext]

/-- The counter moves also when no number is given. -/
theorem next_register {r : Registry} {p : Path} (hnone : r.id? p = none) :
    (r.register p).1.next = r.next + 1 := by
  by_cases hnext : r.next = 0
  · rw [register_of_next_eq_zero hnone hnext]
  · rw [register_of_next_ne_zero hnone hnext]

/-- Only the paths that were called for have numbers. -/
theorem exists_of_id?_registerAll {r : Registry} {calls : List Path} {p : Path} {id : FileId}
    (hnone : r.id? p = none) (h : (r.registerAll calls).id? p = some id) :
    ∃ q ∈ calls, q.normal = p.normal := by
  induction calls generalizing r with
  | nil =>
    rw [registerAll, List.foldl_nil, hnone] at h
    cases h
  | cons q calls ih =>
    by_cases hq : q.normal = p.normal
    · exact ⟨q, List.mem_cons_self, hq⟩
    · obtain ⟨q', hmem, hnormal⟩ := ih ((id?_register_of_ne r hq).trans hnone) h
      exact ⟨q', List.mem_cons_of_mem _ hmem, hnormal⟩

/-! ## What a number of draws leaves -/

/-- Two different paths have one number. -/
def Shares (r : Registry) : Prop :=
  ∃ (p q : Path) (id : FileId), p.normal ≠ q.normal ∧ r.id? p = some id ∧ r.id? q = some id

/-- What is known of a registry that has drawn `n` times. -/
structure Drawn (n : Nat) (r : Registry) : Prop where
  next_eq : r.next.toNat = (n + 1) % UInt32.size
  paired : n ≤ UInt32.size → r.Paired
  taken : n ≤ UInt32.size → ∀ v : UInt32, r.byId[v]?.isSome ↔ v ≠ 0 ∧ v.toNat ≤ n
  shares : UInt32.size < n → r.Shares

theorem drawn_empty : Drawn 0 {} where
  next_eq := rfl
  paired _ := matched_empty.byPath
  taken _ v := by
    have hzero : v.toNat = 0 → v = 0 := fun h => UInt32.toNat_inj.mp h
    simpa using mt hzero
  shares h := absurd h (by decide)

theorem toNat_succ {n : Nat} {v : UInt32} (h : v.toNat = n % UInt32.size) :
    (v + 1).toNat = (n + 1) % UInt32.size := by
  rw [UInt32.toNat_add, h]
  exact Nat.mod_add_mod n UInt32.size 1

namespace Drawn

variable {n : Nat} {r : Registry} (hr : r.Drawn n)

include hr

/-- The counter stands at zero once in a round. -/
theorem next_eq_zero_iff : r.next = 0 ↔ n % UInt32.size = idCount := by
  have hnext := hr.next_eq
  rw [← UInt32.toNat_inj, hnext]
  show (n + 1) % UInt32.size = 0 ↔ n % UInt32.size = idCount
  simp only [UInt32.size, idCount]
  omega

theorem register_eq_none_iff (p : Path) :
    (r.register p).2 = none ↔ r.id? p = none ∧ n % UInt32.size = idCount := by
  rw [← hr.next_eq_zero_iff]
  obtain ⟨id, hid, h⟩ | ⟨hid, hz, h⟩ | ⟨hid, hz, h⟩ := r.register_cases p
  · simp [h, hid]
  · simp [h, hz]
  · simp [h, hid, hz]

/-- A draw while there are free numbers gives out the next one. -/
theorem insert (hroom : n < idCount) {p : Path} (hnone : r.id? p = none) :
    Drawn (n + 1) { byPath := r.byPath.insert p.normal ⟨r.next⟩
                    byId := r.byId.insert r.next p
                    next := r.next + 1 } := by
  have hsmall : n < UInt32.size := Nat.lt_of_lt_of_le hroom (by decide)
  have hnext : r.next.toNat = n + 1 := by
    rw [hr.next_eq]
    exact Nat.mod_eq_of_lt (by simp only [idCount] at hroom; omega)
  have htaken := hr.taken (Nat.le_of_lt hsmall)
  have hpaired : r.Paired := hr.paired (Nat.le_of_lt hsmall)
  have hfree : r.byId[r.next]? = none := by
    have := (htaken r.next).not.mpr (by omega)
    simpa using this
  refine ⟨toNat_succ hr.next_eq, fun _ => hpaired.insert_next hfree hnone, fun _ v => ?_,
    fun hlate => absurd hlate (by omega)⟩
  show (r.byId.insert r.next p)[v]?.isSome ↔ v ≠ 0 ∧ v.toNat ≤ n + 1
  rw [TreeMap.getElem?_insert]
  by_cases hv : r.next = v
  · subst hv
    have hne : r.next ≠ 0 := fun hz => by simp [hz] at hnext
    simp [hne, hnext]
  · have hne : v.toNat ≠ n + 1 := fun h => hv (UInt32.toNat_inj.mp (hnext.trans h.symm))
    rw [if_neg (by simpa using hv), htaken v]
    exact and_congr_right fun _ => by omega

/-- A draw that finds the counter at zero leaves all numbers as they are. -/
theorem refuse (hfull : n = idCount) : Drawn (n + 1) { r with next := r.next + 1 } := by
  subst hfull
  refine ⟨toNat_succ hr.next_eq, fun _ => hr.paired (by decide), fun _ v => ?_,
    fun hlate => absurd hlate (by decide)⟩
  rw [show ({ r with next := r.next + 1 } : Registry).byId = r.byId from rfl,
    hr.taken (by decide) v]
  refine and_congr_right fun _ => ?_
  have := v.toNat_lt
  simp only [idCount, UInt32.size]
  omega

/-- The first draw of the next round gives a new path a number that is taken. -/
theorem shares_register (hround : n = UInt32.size) {p : Path} (hnone : r.id? p = none) :
    (r.register p).2 = some ⟨1⟩ ∧ (r.register p).1.Shares := by
  have hone : r.next = 1 := UInt32.toNat_inj.mp (by rw [hr.next_eq, hround]; decide)
  obtain ⟨q, hq⟩ : ∃ q, r.byId[(1 : UInt32)]? = some q := by
    rw [← Option.isSome_iff_exists, hr.taken (Nat.le_of_eq hround), hround]
    decide
  have hpaired : r.Paired := hr.paired (Nat.le_of_eq hround)
  have hfirst : r.id? q = some ⟨1⟩ := hpaired.id?_of_path? hq
  have hgiven : (r.register p).2 = some ⟨1⟩ := by
    rw [register_of_next_ne_zero hnone (by rw [hone]; decide), hone]
  refine ⟨hgiven, q, p, ⟨1⟩, fun hsame => ?_, id?_register_of_some hfirst p,
    id?_register_self hgiven⟩
  rw [r.id?_congr hsame, hnone] at hfirst
  cases hfirst

/-- Paths that share a number share it for ever. -/
theorem of_shares {p : Path} (hnone : r.id? p = none) (hlate : UInt32.size ≤ n)
    (hshares : (r.register p).1.Shares) : Drawn (n + 1) (r.register p).1 where
  next_eq := by
    rw [next_register hnone]
    exact toNat_succ hr.next_eq
  paired h := absurd h (by omega)
  taken h := absurd h (by omega)
  shares _ := hshares

/-- A call on a path without a number. -/
theorem draw {p : Path} (hnone : r.id? p = none) : Drawn (n + 1) (r.register p).1 := by
  obtain hroom | hfull | hround | hlate :
      n < idCount ∨ n = idCount ∨ n = UInt32.size ∨ UInt32.size < n := by
    simp only [idCount]
    omega
  · have hnext : r.next ≠ 0 := fun hz => by
      have hfull := hr.next_eq_zero_iff.mp hz
      rw [Nat.mod_eq_of_lt (Nat.lt_of_lt_of_le hroom (by decide))] at hfull
      omega
    rw [register_of_next_ne_zero hnone hnext]
    exact hr.insert hroom hnone
  · rw [register_of_next_eq_zero hnone (hr.next_eq_zero_iff.mpr (by rw [hfull]; decide))]
    exact hr.refuse hfull
  · exact hr.of_shares hnone (Nat.le_of_eq hround.symm) (hr.shares_register hround hnone).2
  · obtain ⟨q, q', id, hne, hq, hq'⟩ := hr.shares hlate
    exact hr.of_shares hnone (Nat.le_of_lt hlate)
      ⟨q, q', id, hne, id?_register_of_some hq p, id?_register_of_some hq' p⟩

/-- **One call.** A call on a path without a number draws, any other changes nothing. -/
theorem register (p : Path) :
    Drawn (n + if (r.id? p).isNone then 1 else 0) (r.register p).1 := by
  cases hid : r.id? p with
  | some id =>
    rw [register_of_id? hid]
    exact hr
  | none =>
    rw [Option.isNone_none, if_pos rfl]
    exact hr.draw hid

/-- **All calls.** -/
theorem registerAll (calls : List Path) : Drawn (n + r.draws calls) (r.registerAll calls) := by
  induction calls generalizing n r with
  | nil => exact hr
  | cons p calls ih =>
    rw [draws, ← Nat.add_assoc]
    exact ih (hr.register p)

end Drawn

/-! ## Registries that can be trusted -/

/-- No two paths share a number, and each path is found again under its number. -/
structure Faithful (r : Registry) : Prop where
  unique : ∀ {p q : Path} {id : FileId}, r.id? p = some id → r.id? q = some id →
    p.normal = q.normal
  path : ∀ {p : Path} {id : FileId}, r.id? p = some id →
    ∃ q, r.path? id = some q ∧ q.normal = p.normal

theorem Paired.faithful {r : Registry} (h : r.Paired) : r.Faithful where
  unique hp hq := h.normal_eq_of_id? hp hq
  path hp := (h _ _).mp hp

theorem Shares.not_faithful {r : Registry} (h : r.Shares) : ¬ r.Faithful := by
  obtain ⟨p, q, id, hne, hp, hq⟩ := h
  exact fun hfaithful => hne (hfaithful.unique hp hq)

theorem Drawn.faithful_iff {n : Nat} {r : Registry} (h : r.Drawn n) :
    r.Faithful ↔ n ≤ UInt32.size := by
  refine ⟨fun hfaithful => ?_, fun hearly => ?_⟩
  · by_contra hlate
    exact (h.shares (Nat.lt_of_not_le hlate)).not_faithful hfaithful
  · have hpaired : r.Paired := h.paired hearly
    exact hpaired.faithful

/-- **When numbers are given twice.** After any sequence of calls, the registry can be trusted
exactly if the calls have drawn at most `UInt32.size` times. A call is refused exactly if it draws
and all numbers but zero have been drawn in this round; it changes neither direction, but the draw
after it is not refused. A path with a number keeps it, whatever is called. -/
theorem faithful_registerAll_iff (calls : List Path) :
    ((registerAll {} calls).Faithful ↔ draws {} calls ≤ UInt32.size) ∧
    (∀ p, ((registerAll {} calls).register p).2 = none ↔
      (registerAll {} calls).id? p = none ∧ draws {} calls % UInt32.size = idCount) ∧
    (∀ p, ((registerAll {} calls).register p).2 = none →
      ((registerAll {} calls).register p).1.byPath = (registerAll {} calls).byPath ∧
      ((registerAll {} calls).register p).1.byId = (registerAll {} calls).byId ∧
      ∀ q, (((registerAll {} calls).register p).1.register q).2 ≠ none) ∧
    ∀ p id, (registerAll {} calls).id? p = some id → ∀ more,
      ((registerAll {} (calls ++ more)).register p).2 = some id := by
  have hdrawn : (registerAll {} calls).Drawn (draws {} calls) := by
    simpa using drawn_empty.registerAll calls
  refine ⟨hdrawn.faithful_iff, hdrawn.register_eq_none_iff, fun p hp => ?_, fun p id hid more => ?_⟩
  · obtain ⟨hnone, hround⟩ := (hdrawn.register_eq_none_iff p).mp hp
    have hzero := hdrawn.next_eq_zero_iff.mpr hround
    have hnext := hdrawn.draw hnone
    rw [register_of_next_eq_zero hnone hzero] at hnext ⊢
    refine ⟨rfl, rfl, fun q hq => ?_⟩
    obtain ⟨-, hagain⟩ := (hnext.register_eq_none_iff q).mp hq
    simp only [idCount, UInt32.size] at hround hagain
    omega
  · rw [registerAll_append, register_of_id? (id?_registerAll_of_some hid more)]

/-! ## Sequences that exhaust the numbers -/

/-- A path that was not called for has no number. -/
theorem id?_registerAll_eq_none {calls : List Path} {p : Path}
    (h : p.normal ∉ calls.map Path.normal) : (registerAll {} calls).id? p = none := by
  cases hid : (registerAll {} calls).id? p with
  | none => rfl
  | some id =>
    obtain ⟨q, hq, hsame⟩ := exists_of_id?_registerAll (by simp [id?]) hid
    exact absurd (List.mem_map.mpr ⟨q, hq, hsame⟩) h

/-- Paths that all differ draw as often as they are called for. -/
theorem drawn_of_nodup {calls : List Path} (h : (calls.map Path.normal).Nodup) :
    (registerAll {} calls).Drawn calls.length := by
  induction calls using List.reverseRecOn with
  | nil => exact drawn_empty
  | append_singleton calls p ih =>
    rw [List.map_append, List.map_singleton, ← List.concat_eq_append, List.nodup_concat] at h
    rw [registerAll_append, List.length_append]
    exact (ih h.2).draw (id?_registerAll_eq_none h.1)

/-- The call that finds all numbers given out is refused. -/
theorem register_eq_none_of_nodup {calls : List Path} {p : Path}
    (h : (calls.map Path.normal).Nodup) (hfull : calls.length = idCount)
    (hnew : p.normal ∉ calls.map Path.normal) : ((registerAll {} calls).register p).2 = none := by
  refine ((drawn_of_nodup h).register_eq_none_iff p).mpr ⟨id?_registerAll_eq_none hnew, ?_⟩
  rw [hfull]
  decide

/-- A path of `n + 1` letters. -/
def lettered (n : Nat) : Path := String.ofList (List.replicate (n + 1) 'a')

/-- The paths of one letter, two letters and so on, `count` of them. -/
def letteredPaths (count : Nat) : List Path := (List.range count).map lettered

theorem components_lettered (n : Nat) : (lettered n).components = [lettered n] := by
  have hname : ∀ s ∈ [lettered n], Path.IsName s := by
    simp [Path.IsName, lettered, List.replicate_succ]
  simpa using Path.components_intercalate hname

theorem normal_lettered_inj {m n : Nat} (h : (lettered m).normal = (lettered n).normal) :
    m = n := by
  have hcomponents := Path.components_eq_of_normal_eq h
  rw [components_lettered, components_lettered, List.singleton_inj] at hcomponents
  have hlength := congrArg (fun p => p.toList.length) hcomponents
  simpa [lettered] using hlength

theorem letteredPaths_succ (count : Nat) :
    letteredPaths (count + 1) = letteredPaths count ++ [lettered count] := by
  rw [letteredPaths, List.range_succ, List.map_append]
  rfl

theorem nodup_letteredPaths (count : Nat) : ((letteredPaths count).map Path.normal).Nodup := by
  rw [letteredPaths, List.map_map]
  exact List.Nodup.map (fun m n h => normal_lettered_inj h) List.nodup_range

theorem length_letteredPaths (count : Nat) : (letteredPaths count).length = count := by
  simp [letteredPaths]

theorem normal_lettered_notMem (count : Nat) :
    (lettered count).normal ∉ (letteredPaths count).map Path.normal := by
  rw [letteredPaths, List.map_map, List.mem_map]
  rintro ⟨n, hn, hsame⟩
  exact Nat.ne_of_lt (List.mem_range.mp hn) (normal_lettered_inj hsame)

theorem normal_absolute_notMem {p : Path} (h : p.isAbsolute = true) (count : Nat) :
    p.normal ∉ (letteredPaths count).map Path.normal := by
  rw [letteredPaths, List.map_map, List.mem_map]
  rintro ⟨n, -, hsame⟩
  have hcomponents := Path.components_eq_of_normal_eq hsame
  rw [components_lettered, Path.components, if_pos h] at hcomponents
  have hlist := congrArg String.toList (List.cons.inj hcomponents).1
  simp [lettered, List.replicate_succ] at hlist

theorem id?_lettered_zero (count : Nat) :
    (registerAll {} (letteredPaths (count + 1))).id? (lettered 0) = some ⟨1⟩ := by
  induction count with
  | zero =>
    have hgiven : (register {} (lettered 0)).2 = some ⟨1⟩ :=
      congrArg Prod.snd (register_of_next_ne_zero (by simp [id?]) (by decide))
    exact id?_register_self hgiven
  | succ count ih =>
    rw [letteredPaths_succ, registerAll_append]
    exact id?_registerAll_of_some ih _

theorem id?_lettered_last {count : Nat} {id : FileId}
    (h : ((registerAll {} (letteredPaths count)).register (lettered count)).2 = some id) :
    (registerAll {} (letteredPaths (count + 1))).id? (lettered count) = some id := by
  rw [letteredPaths_succ, registerAll_append]
  exact id?_register_self h

/-- **Two paths with one number.** The call that finds all numbers given out is refused. The next
one is given the number one, which is that of the first path. -/
theorem shared_number_letteredPaths :
    ((registerAll {} (letteredPaths idCount)).register (lettered idCount)).2 = none ∧
    ((registerAll {} (letteredPaths UInt32.size)).register (lettered UInt32.size)).2 = some ⟨1⟩ ∧
    (registerAll {} (letteredPaths (UInt32.size + 1))).id? (lettered UInt32.size) = some ⟨1⟩ ∧
    (registerAll {} (letteredPaths (UInt32.size + 1))).id? (lettered 0) = some ⟨1⟩ ∧
    (lettered 0).normal ≠ (lettered UInt32.size).normal := by
  have hrefused := register_eq_none_of_nodup (nodup_letteredPaths idCount)
    (length_letteredPaths idCount) (normal_lettered_notMem idCount)
  have hdrawn := drawn_of_nodup (nodup_letteredPaths UInt32.size)
  rw [length_letteredPaths] at hdrawn
  have hnew := id?_registerAll_eq_none (normal_lettered_notMem UInt32.size)
  have hgiven := (hdrawn.shares_register rfl hnew).1
  refine ⟨hrefused, hgiven, id?_lettered_last hgiven, id?_lettered_zero UInt32.size,
    fun hsame => ?_⟩
  exact absurd (normal_lettered_inj hsame) (by decide)

end BehaviorIndex.Registry
