import Mathlib.Data.List.Perm.Subperm
import Mathlib.Data.Set.Function
import Mathlib.Logic.Relation
import ShiftReduce.Worklist

namespace ShiftReduce
namespace Worklist

open Relation

variable {α β : Type} [DecidableEq α] [DecidableEq β] {next : α → List α} {w : Worklist α}
  {out xs seen rest all : List α} {x y : α} {fuel : Nat}

section Pushing

theorem pushAll_cons : w.pushAll (x :: xs) = (w.push x).1.pushAll xs :=
  rfl

theorem mem_seen_pushAll : y ∈ (w.pushAll xs).seen ↔ y ∈ xs ∨ y ∈ w.seen := by
  induction xs generalizing w
  case nil          => simp [pushAll]
  case cons x xs hi => rw [pushAll_cons, hi, mem_seen_push, List.mem_cons, or_assoc, or_left_comm]

theorem mem_seen_ofList : y ∈ (ofList xs).seen ↔ y ∈ xs := by
  rw [ofList, mem_seen_pushAll]
  simp [empty]

theorem mem_pending_push (h : y ∈ (w.push x).1.pending) : y = x ∨ y ∈ w.pending := by
  unfold push at h
  split at h
  case isTrue  => exact .inr h
  case isFalse => exact (List.mem_append.mp h).symm.imp_left List.mem_singleton.mp

theorem mem_pending_pushAll (h : y ∈ (w.pushAll xs).pending) : y ∈ xs ∨ y ∈ w.pending := by
  induction xs generalizing w
  case nil          => exact .inr h
  case cons x xs hi =>
    rw [List.mem_cons, or_right_comm]
    exact (hi h).symm.imp_left mem_pending_push

theorem traverse_cons : traverse next (fuel + 1) ⟨x :: rest, seen⟩ =
    x :: traverse next fuel ((⟨rest, seen⟩ : Worklist α).pushAll (next x)) :=
  rfl

end Pushing

-- Every value that was ever pushed is out or pending, but not both.
structure Tracks (out : List α) (w : Worklist α) : Prop where
  perm  : w.seen.Perm (out ++ w.pending)
  nodup : w.seen.Nodup

namespace Tracks

theorem push (h : Tracks out w) : Tracks out (w.push x).1 := by
  rw [Worklist.push]
  split
  case isTrue => exact h
  case isFalse hx =>
    refine ⟨(h.perm.cons x).trans ?_, List.nodup_cons.mpr ⟨hx, h.nodup⟩⟩
    rw [← List.append_assoc]
    exact (List.perm_append_singleton x _).symm

theorem pushAll (h : Tracks out w) : Tracks out (w.pushAll xs) := by
  induction xs generalizing w
  case nil          => exact h
  case cons x xs hi => exact hi h.push

theorem ofList : Tracks [] (Worklist.ofList xs) :=
  pushAll ⟨.refl _, .nil⟩

theorem step (h : Tracks out ⟨x :: rest, seen⟩) :
    Tracks (out ++ [x]) ((⟨rest, seen⟩ : Worklist α).pushAll xs) :=
  pushAll ⟨by simpa using h.perm, h.nodup⟩

theorem nodup_append_traverse (h : Tracks out w) : (out ++ w.traverse next fuel).Nodup := by
  induction fuel generalizing out w
  case zero =>
    have := h.perm.nodup_iff.mp h.nodup
    simpa [traverse] using this.sublist (List.sublist_append_left ..)
  case succ fuel hi =>
    match w, h with
    | ⟨[], _⟩, h     => exact h.perm.nodup_iff.mp h.nodup
    | ⟨x :: _, _⟩, h =>
      rw [traverse_cons, List.append_cons]
      exact hi h.step

-- With enough fuel nothing is left pending.
theorem perm_append_traverse (h : Tracks out w) (hall : ∀ x ∈ w.seen, x ∈ all)
    (hnext : ∀ x, ∀ y ∈ next x, y ∈ all) (hfuel : all.length ≤ out.length + fuel) :
    ∃ w', Tracks (out ++ w.traverse next fuel) w' ∧ w'.pending = [] ∧
      (∀ x ∈ w.seen, x ∈ w'.seen) ∧ ∀ x ∈ w.traverse next fuel, ∀ y ∈ next x, y ∈ w'.seen := by
  induction fuel generalizing out w
  case zero =>
    have hle := (h.nodup.subperm hall).length_le
    rw [h.perm.length_eq, List.length_append] at hle
    refine ⟨w, by simpa [traverse] using h, ?_, fun _ => id, nofun⟩
    exact List.length_eq_zero_iff.mp <| by omega
  case succ fuel hi =>
    match w, h with
    | ⟨[], _⟩, h           => exact ⟨_, by simpa [traverse, pop?] using h, rfl, fun _ => id, nofun⟩
    | ⟨x :: rest, seen⟩, h =>
      have hseen {y} := @mem_seen_pushAll _ _ ⟨rest, seen⟩ (next x) y
      have hstep : Tracks (out ++ [x]) ((⟨rest, seen⟩ : Worklist α).pushAll (next x)) := h.step
      obtain ⟨w', htracks, hpending, hmono, hclosed⟩ :=
        hi hstep (fun y hy => (hseen.mp hy).elim (hnext x y) (hall y)) (by simp; omega)
      rw [List.append_assoc] at htracks
      refine ⟨w', htracks, hpending, fun y hy => hmono y <| hseen.mpr <| .inr hy, ?_⟩
      refine List.forall_mem_cons.mpr ⟨fun y hy => ?_, hclosed⟩
      exact hmono y <| hseen.mpr <| .inl hy

end Tracks

theorem nodup_traverse : ((ofList xs).traverse next fuel).Nodup :=
  Tracks.ofList.nodup_append_traverse

theorem forall_mem_traverse {P : α → Prop} (hw : ∀ x ∈ w.pending, P x)
    (hnext : ∀ x, P x → ∀ y ∈ next x, P y) : ∀ y ∈ w.traverse next fuel, P y := by
  induction fuel generalizing w
  case zero => nofun
  case succ fuel hi =>
    match w with
    | ⟨[], _⟩           => nofun
    | ⟨x :: rest, seen⟩ =>
      obtain ⟨hx, hrest⟩ := List.forall_mem_cons.mp hw
      refine List.forall_mem_cons.mpr ⟨hx, hi fun y hy => ?_⟩
      exact (mem_pending_pushAll hy).elim (hnext x hx y) (hrest y)

theorem mem_traverse_iff (hx : x ∈ all) (hnext : ∀ x, ∀ y ∈ next x, y ∈ all)
    (hfuel : all.length ≤ fuel) : y ∈ (ofList [x]).traverse next fuel ↔
      ReflTransGen (fun x y => y ∈ next x) x y := by
  have htracks : Tracks [] (ofList [x]) := .ofList
  obtain ⟨w, htracks, hpending, hseen, hclosed⟩ := htracks.perm_append_traverse
    (fun y hy => List.mem_singleton.mp (mem_seen_ofList.mp hy) ▸ hx) hnext
    (Nat.zero_add fuel ▸ hfuel)
  have hmem {y} : y ∈ w.seen ↔ y ∈ (ofList [x]).traverse next fuel := by
    rw [htracks.perm.mem_iff, hpending, List.append_nil, List.nil_append]
  constructor
  case mp =>
    refine forall_mem_traverse (fun y hy => ?_) (fun _ h _ hy => h.tail hy) y
    exact List.mem_singleton.mp hy ▸ .refl
  case mpr =>
    intro h
    induction h
    case refl             => exact hmem.mp <| hseen x <| mem_seen_ofList.mpr <| .head _
    case tail y z _ hz hi => exact hmem.mp <| hclosed y hi z hz

section Naming

variable {φ : α → β} {S : Set α} {next' : β → List β}

def map (φ : α → β) (w : Worklist α) : Worklist β where
  pending := w.pending.map φ
  seen    := w.seen.map φ

theorem map_push (hφ : Set.InjOn φ S) (hw : ∀ x ∈ w.seen, x ∈ S) (hx : x ∈ S) :
    ((w.map φ).push (φ x)).1 = (w.push x).1.map φ := by
  have hmem : φ x ∈ w.seen.map φ ↔ x ∈ w.seen := by
    constructor
    case mp =>
      intro h
      obtain ⟨y, hy, he⟩ := List.mem_map.mp h
      exact hφ (hw y hy) hx he ▸ hy
    case mpr => exact List.mem_map_of_mem
  simp only [push, map, hmem]
  split <;> simp

theorem map_pushAll (hφ : Set.InjOn φ S) (hw : ∀ x ∈ w.seen, x ∈ S) (hxs : ∀ x ∈ xs, x ∈ S) :
    (w.map φ).pushAll (xs.map φ) = (w.pushAll xs).map φ := by
  induction xs generalizing w
  case nil          => rfl
  case cons x xs hi =>
    obtain ⟨hx, hxs⟩ := List.forall_mem_cons.mp hxs
    rw [List.map_cons, pushAll_cons, pushAll_cons, map_push hφ hw hx]
    exact hi (fun y hy => (mem_seen_push.mp hy).elim (· ▸ hx) (hw y)) hxs

theorem traverse_map (hφ : Set.InjOn φ S) (hpending : ∀ x ∈ w.pending, x ∈ S)
    (hseen : ∀ x ∈ w.seen, x ∈ S) (hnext : ∀ x ∈ S, ∀ y ∈ next x, y ∈ S)
    (hnext' : ∀ x ∈ S, next' (φ x) = (next x).map φ) :
    (w.map φ).traverse next' fuel = (w.traverse next fuel).map φ := by
  induction fuel generalizing w
  case zero => rfl
  case succ fuel hi =>
    match w with
    | ⟨[], _⟩           => rfl
    | ⟨x :: rest, seen⟩ =>
      obtain ⟨hx, hrest⟩ := List.forall_mem_cons.mp hpending
      have hmap : (⟨x :: rest, seen⟩ : Worklist α).map φ =
          ⟨φ x :: rest.map φ, seen.map φ⟩ := rfl
      have hpushAll := map_pushAll (w := ⟨rest, seen⟩) hφ hseen (hnext x hx)
      rw [hmap, traverse_cons, traverse_cons, List.map_cons, hnext' x hx, ← hi]
      · exact congrArg (φ x :: traverse next' fuel ·) hpushAll
      · exact fun y hy => (mem_pending_pushAll hy).elim (hnext x hx y) (hrest y)
      · exact fun y hy => (mem_seen_pushAll.mp hy).elim (hnext x hx y) (hseen y)

end Naming
end Worklist
end ShiftReduce
