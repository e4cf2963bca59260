import Mathlib.Data.List.Pairwise
import Mathlib.Data.List.Perm.Basic

/-!
# Requests and unordered responses

A client numbers its requests in the order it issues them, and the network
answers each of them once, in any order it likes. `Exchange` keeps the two
sides of that account: the requests still pending, and the responses
handled, in the order they arrived. Between them they are the requests
issued, each exactly once (`accounted`).

Arrival order is the network's choice, so the response handled last is in
general not the one to the newest request. It is when the responses arrive
in issue order (`last_handled_of_ordered`).
-/

namespace VkClient

structure Exchange (ρ δ : Type*) where
  issued : List ρ
  pending : List Nat
  handled : List (Nat × δ)
  accounted : (pending ++ handled.map Prod.fst).Perm (List.range issued.length)

namespace Exchange

variable {ρ δ : Type*}

def empty : Exchange ρ δ := ⟨[], [], [], .refl _⟩

def issue (x : Exchange ρ δ) (request : ρ) : Exchange ρ δ where
  issued := x.issued ++ [request]
  pending := x.issued.length :: x.pending
  handled := x.handled
  accounted := by
    rw [List.length_append, List.length_singleton, List.range_succ, List.cons_append]
    exact (x.accounted.cons _).trans (List.perm_append_singleton ..).symm

def respond (x : Exchange ρ δ) (number : Nat) (response : δ) (hpending : number ∈ x.pending) :
    Exchange ρ δ where
  issued := x.issued
  pending := x.pending.erase number
  handled := x.handled ++ [(number, response)]
  accounted := by
    have hsplit : x.pending.Perm (number :: x.pending.erase number) := List.perm_cons_erase hpending
    have hmoved : (x.pending.erase number ++ (x.handled.map Prod.fst ++ [number])).Perm
        (x.pending ++ x.handled.map Prod.fst) := by
      rw [← List.append_assoc]
      exact (List.perm_append_singleton ..).trans (hsplit.append_right _).symm
    rw [List.map_append, List.map_singleton]
    exact hmoved.trans x.accounted

def issueAll (x : Exchange ρ δ) (requests : List ρ) : Exchange ρ δ := requests.foldl issue x

@[simp] theorem issued_issueAll (x : Exchange ρ δ) (requests : List ρ) :
    (x.issueAll requests).issued = x.issued ++ requests := by
  induction requests generalizing x with
  | nil => exact (List.append_nil _).symm
  | cons request requests ih =>
      have hissue : (x.issue request).issued = x.issued ++ [request] := rfl
      rw [issueAll, List.foldl_cons, ← issueAll, ih, hissue, List.append_assoc]
      rfl

@[simp] theorem handled_issueAll (x : Exchange ρ δ) (requests : List ρ) :
    (x.issueAll requests).handled = x.handled := by
  induction requests generalizing x with
  | nil => rfl
  | cons request requests ih => exact ih (x.issue request)

@[simp] theorem issued_respond (x : Exchange ρ δ) (number : Nat) (response : δ)
    (hpending : number ∈ x.pending) : (x.respond number response hpending).issued = x.issued := rfl

@[simp] theorem handled_respond (x : Exchange ρ δ) (number : Nat) (response : δ)
    (hpending : number ∈ x.pending) :
    (x.respond number response hpending).handled = x.handled ++ [(number, response)] := rfl

theorem handled_lt {x : Exchange ρ δ} {answered : Nat × δ} (h : answered ∈ x.handled) :
    answered.1 < x.issued.length :=
  List.mem_range.mp (x.accounted.mem_iff.mp
    (List.mem_append_right _ (List.mem_map_of_mem h)))

/-- With nothing pending, every request has been answered. -/
theorem exists_handled_of_lt {x : Exchange ρ δ} (hdone : x.pending = []) {n : Nat}
    (hn : n < x.issued.length) : ∃ response, (n, response) ∈ x.handled := by
  have hmem := x.accounted.mem_iff.mpr (List.mem_range.mpr hn)
  rw [hdone, List.nil_append] at hmem
  rcases List.mem_map.mp hmem with ⟨⟨_, response⟩, hhandled, rfl⟩
  exact ⟨response, hhandled⟩

theorem exists_handled_newest {x : Exchange ρ δ} (hdone : x.pending = []) {n : Nat}
    (hn : n + 1 = x.issued.length) : ∃ response, (n, response) ∈ x.handled :=
  exists_handled_of_lt hdone (by omega)

/-- Responses that arrive in issue order end with the newest request's. -/
theorem last_handled_of_ordered {x : Exchange ρ δ} (hdone : x.pending = [])
    (hordered : (x.handled.map Prod.fst).Pairwise (· < ·)) {last : Nat × δ}
    (hlast : x.handled.getLast? = some last) : last.1 + 1 = x.issued.length := by
  have hperm : (x.handled.map Prod.fst).Perm (List.range x.issued.length) := by
    have h := x.accounted
    rwa [hdone, List.nil_append] at h
  have heq : x.handled.map Prod.fst = List.range x.issued.length :=
    hperm.eq_of_pairwise (fun _ _ _ _ h₁ h₂ => absurd h₁ (Nat.lt_asymm h₂)) hordered
      List.pairwise_lt_range
  have hnumber : (List.range x.issued.length).getLast? = some last.1 := by
    rw [← heq, List.getLast?_map, hlast]
    rfl
  rw [List.getLast?_range] at hnumber
  split at hnumber
  · cases hnumber
  · have := Option.some.inj hnumber
    omega

end Exchange

end VkClient
