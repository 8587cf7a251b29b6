import Xv6Arm.Shell.Model
import Mathlib.Data.List.Perm.Subperm

/-!
# Each node of a command tree is run once

The files that a command opens are named by the nodes of the tree.  This is a name
for one file only if no node is run twice.  The nodes at which some process will
call `runcmd` are never on the way to one another: when a node is run, the roots
of its subcommands take its place.
-/

namespace Xv6Arm.Shell

open Runs

variable {σ : Type}

/-- The nodes at which the code will call `runcmd`. -/
def Code.ahead : Code σ → List Node
  | .runcmd node _ => [node]
  | .exec _ _ k => k.ahead
  | .close _ k => k.ahead
  | .open _ _ _ k => k.ahead
  | .dup _ k => k.ahead
  | .pipe _ k => k.ahead
  | .fork child k => child.ahead ++ k.ahead
  | .wait k => k.ahead
  | .exit => []
  | .gone => []

def ahead (pool : List (Proc σ)) : List Node := pool.flatMap fun P => P.code.ahead

/-- The turns from a command to its subcommands. -/
def Cmd.turns : Cmd σ → List Turn
  | .exec _ => []
  | .redir _ _ _ _ => [.sub]
  | .pipe _ _ => [.left, .right]
  | .list _ _ => [.left, .right]
  | .back _ => [.sub]

theorem Cmd.nodup_turns (c : Cmd σ) : c.turns.Nodup := by
  cases c <;> simp [Cmd.turns]

theorem ahead_runcmd (node : Node) (c : Cmd σ) :
    (runcmd node c).ahead = c.turns.map fun d => node ++ [d] := by
  cases c with
  | exec argv => cases argv <;> rfl
  | _ => rfl

/-- The node whose command the process is about to run. -/
def Proc.running (P : Proc σ) : Option Node :=
  match P.code with
  | .runcmd node _ => some node
  | _ => none

/-- What a step of a process does to the nodes ahead. -/
theorem Proc.step_ahead {P : Proc σ} {ok : Bool} {r : Proc σ × List (Proc σ)}
    (h : P.step ok = some r) :
    (∃ node c, P.code = .runcmd node c ∧ ahead (r.1 :: r.2) = c.turns.map fun d => node ++ [d]) ∨
      (P.running = none ∧ List.Subperm (ahead (r.1 :: r.2)) P.code.ahead) := by
  obtain ⟨code, p, t⟩ := P
  cases code with
  | runcmd node cmd =>
      cases h
      exact .inl ⟨node, cmd, rfl, by simp [ahead, ahead_runcmd]⟩
  | exec node argv k =>
      cases h
      refine .inr ⟨rfl, ?_⟩
      cases ok <;> simp [ahead, Code.ahead, List.Subperm.refl]
  | «open» node file mode k =>
      simp only [Proc.step] at h
      refine .inr ⟨rfl, ?_⟩
      split at h <;> cases h <;> simp [ahead, Code.ahead, List.Subperm.refl]
  | pipe node k =>
      simp only [Proc.step] at h
      refine .inr ⟨rfl, ?_⟩
      split at h <;> cases h <;> simp [ahead, Code.ahead, List.Subperm.refl]
  | fork child k =>
      refine .inr ⟨rfl, ?_⟩
      cases ok with
      | true =>
          cases h
          simpa [ahead, Code.ahead] using List.perm_append_comm.subperm
      | false =>
          cases h
          simp [ahead, Code.ahead]
  | close fd k =>
      cases h
      exact .inr ⟨rfl, by simp [ahead, Code.ahead, List.Subperm.refl]⟩
  | dup fd k =>
      cases h
      exact .inr ⟨rfl, by simp [ahead, Code.ahead, List.Subperm.refl]⟩
  | wait k =>
      cases h
      exact .inr ⟨rfl, by simp [ahead, Code.ahead, List.Subperm.refl]⟩
  | exit =>
      cases h
      exact .inr ⟨rfl, by simp [ahead, Code.ahead, List.Subperm.refl]⟩
  | gone => cases h

/-- The node that a step of the pool runs. -/
def ranAt (pool : List (Proc σ)) (l : Nat × Bool) : Option Node :=
  (pool[l.1]?).bind Proc.running

/-- The nodes that a run has run, the latest last. -/
def nodesRun (tr : List (List (Proc σ) × (Nat × Bool))) : List Node :=
  tr.filterMap fun x => ranAt x.1 x.2

/-- No node is on the way to another. -/
def Apart (l : List Node) : Prop := l.Pairwise fun m n => ¬ m <+: n ∧ ¬ n <+: m

theorem Apart.subperm {l l' : List Node} (h : Apart l) (hs : List.Subperm l' l) : Apart l' := by
  obtain ⟨l₁, hperm, hsub⟩ := hs
  exact (hperm.pairwise_iff fun h => ⟨h.2, h.1⟩).mp (List.Pairwise.sublist hsub h)

/-- The pool after one of its processes is replaced. -/
theorem ahead_set {pool : List (Proc σ)} {i : Nat} {P : Proc σ} (h : pool[i]? = some P) :
    ∃ G, (ahead pool).Perm (P.code.ahead ++ G) ∧
      ∀ P' l, (ahead (pool.set i P' ++ l)).Perm (ahead (P' :: l) ++ G) := by
  obtain ⟨hi, hP⟩ := List.getElem?_eq_some_iff.mp h
  refine ⟨ahead (pool.take i ++ pool.drop (i + 1)), ?_, ?_⟩
  · have hsplit : pool = pool.take i ++ P :: pool.drop (i + 1) := by
      rw [← hP, List.getElem_cons_drop, List.take_append_drop]
    nth_rewrite 1 [hsplit]
    simp only [ahead, List.flatMap_append, List.flatMap_cons]
    exact List.perm_append_comm_assoc _ _ _
  · intro P' l
    rw [List.set_eq_take_append_cons_drop, if_pos hi]
    simp only [ahead, List.flatMap_append, List.flatMap_cons, List.append_assoc]
    refine (List.perm_append_comm_assoc _ _ _).trans (List.Perm.append_left _ ?_)
    rw [← List.append_assoc]
    exact List.perm_append_comm

/-- A step of the pool runs no node, or it puts the subcommands of a node in place of
the node. -/
theorem step_ahead {l : Nat × Bool} {pool pool' : List (Proc σ)} (h : step l pool = some pool') :
    (ranAt pool l = none ∧ List.Subperm (ahead pool') (ahead pool)) ∨
      ∃ (node : Node) (ds : List Turn) (G : List Node), ranAt pool l = some node ∧ ds.Nodup ∧
        (ahead pool).Perm (node :: G) ∧
        (ahead pool').Perm (ds.map (fun d => node ++ [d]) ++ G) := by
  obtain ⟨P, hP, r, hr, rfl⟩ := step_cases h
  obtain ⟨G, hbefore, hafter⟩ := ahead_set hP
  have hran : ranAt pool l = P.running := by rw [ranAt, hP, Option.bind_some]
  rcases P.step_ahead hr with ⟨node, c, hc, hr'⟩ | ⟨hnone, hsub⟩
  · refine .inr ⟨node, c.turns, G, ?_, c.nodup_turns, ?_, ?_⟩
    · rw [hran, Proc.running, hc]
    · rwa [hc] at hbefore
    · rw [← hr']
      exact hafter r.1 r.2
  · refine .inl ⟨hran.trans hnone, ?_⟩
    exact (hafter r.1 r.2).subperm.trans
      ((hsub.append (List.Subperm.refl G)).trans hbefore.symm.subperm)

/-- Nodes of a subtree take the place of its root. -/
theorem Apart.replace {node : Node} {G : List Node} {ds : List Turn} (h : Apart (node :: G))
    (hds : ds.Nodup) : Apart (ds.map (fun d => node ++ [d]) ++ G) := by
  obtain ⟨hnode, hG⟩ := List.pairwise_cons.mp h
  refine List.pairwise_append.mpr ⟨?_, hG, ?_⟩
  · refine List.pairwise_map.mpr (hds.imp fun {d d'} hne => ?_)
    constructor <;> intro hp <;> simp at hp
    · exact hne hp
    · exact hne hp.symm
  · intro m hm n hn
    obtain ⟨d, -, rfl⟩ := List.mem_map.mp hm
    refine ⟨fun hp => (hnode n hn).1 ((List.prefix_append node [d]).trans hp), fun hp => ?_⟩
    -- a prefix of `node ++ [d]` is `node ++ [d]` or a prefix of `node`
    rcases List.prefix_concat_iff.mp hp with rfl | hp
    · exact (hnode _ hn).1 (List.prefix_append node [d])
    · exact (hnode n hn).2 hp

/-- No node is run twice, and what is run is under a node that was ahead. -/
theorem nodesRun_nodup {pool pool' : List (Proc σ)} {tr : List (List (Proc σ) × (Nat × Bool))}
    (h : Run step pool tr pool') (hpool : Apart (ahead pool)) :
    (nodesRun tr).Nodup ∧ ∀ n ∈ nodesRun tr, ∃ m ∈ ahead pool, m <+: n := by
  induction h with
  | nil s => simp [nodesRun]
  | @cons s t u l tr hs hrest ih =>
      rcases step_ahead hs with ⟨hran, hsub⟩ | ⟨node, ds, G, hran, hds, hbefore, hafter⟩
      · have htr : nodesRun ((s, l) :: tr) = nodesRun tr := by simp [nodesRun, hran]
        obtain ⟨hnodup, hunder⟩ := ih (hpool.subperm hsub)
        rw [htr]
        refine ⟨hnodup, fun n hn => ?_⟩
        obtain ⟨m, hm, hmn⟩ := hunder n hn
        exact ⟨m, hsub.subset hm, hmn⟩
      · have htr : nodesRun ((s, l) :: tr) = node :: nodesRun tr := by simp [nodesRun, hran]
        have happ : Apart (node :: G) := hpool.subperm hbefore.symm.subperm
        obtain ⟨hnodup, hunder⟩ := ih ((happ.replace hds).subperm hafter.subperm)
        obtain ⟨hnode, -⟩ := List.pairwise_cons.mp happ
        have hmem : node ∈ ahead s := hbefore.symm.subset List.mem_cons_self
        rw [htr]
        refine ⟨List.nodup_cons.mpr ⟨fun hn => ?_, hnodup⟩, fun n hn => ?_⟩
        · obtain ⟨m, hm, hmn⟩ := hunder node hn
          rcases List.mem_append.mp (hafter.subset hm) with hm | hm
          · obtain ⟨d, -, rfl⟩ := List.mem_map.mp hm
            have hlen := hmn.length_le
            rw [List.length_append, List.length_singleton] at hlen
            omega
          · exact (hnode m hm).2 hmn
        · rcases List.mem_cons.mp hn with rfl | hn
          · exact ⟨n, hmem, List.prefix_rfl⟩
          · obtain ⟨m, hm, hmn⟩ := hunder n hn
            rcases List.mem_append.mp (hafter.subset hm) with hm | hm
            · obtain ⟨d, -, rfl⟩ := List.mem_map.mp hm
              exact ⟨node, hmem, (List.prefix_append node [d]).trans hmn⟩
            · exact ⟨m, hbefore.symm.subset (List.mem_cons_of_mem _ hm), hmn⟩

/-- The processes of a command run each node of its tree at most once. -/
theorem start_nodesRun_nodup {i o e : Nat} {root : Cmd σ} {pool : List (Proc σ)}
    {tr : List (List (Proc σ) × (Nat × Bool))} (h : Run step (start i o e root) tr pool) :
    (nodesRun tr).Nodup :=
  (nodesRun_nodup h (List.pairwise_singleton _ _)).1

end Xv6Arm.Shell
