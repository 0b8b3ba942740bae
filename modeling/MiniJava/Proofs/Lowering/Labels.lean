import Mathlib.Data.List.Nodup
import MiniJava.Proofs.Cells
import MiniJava.Proofs.Lowering.Joins

/-!
# Labels are distinct

The labels of an `if` and of a loop are named after the number of their node. Different nodes have
different labels, and the labels of one node differ. So if the nodes of a method have different
numbers, a label stands in its code once, and a jump goes where it should.
-/

namespace MiniJava

open Ast Ssa List

variable {id : NodeId} {l : String} {ls : List String} {sc : Scope} {code : Body}

/-! ## Node numbers -/

namespace Ast

mutual

def Stmt.nodeIds : Stmt → List NodeId
  | .block stmts => stmtsNodeIds stmts
  | .ifThen id _ thenBranch => id :: thenBranch.nodeIds
  | .ifElse id _ thenBranch elseBranch => id :: (thenBranch.nodeIds ++ elseBranch.nodeIds)
  | .while id _ body => id :: body.nodeIds
  | .print _ | .expr _ => []

def stmtsNodeIds : List Stmt → List NodeId
  | [] => []
  | s :: ss => s.nodeIds ++ stmtsNodeIds ss

end

end Ast

namespace Ssa

/-! ## The node of a label -/

def labelNode (label : String) : Nat :=
  Nat.ofDigitChars 10 ((label.toList.dropWhile (· != '_')).tail.takeWhile (· != '_')) 0

theorem toList_label (pre post : String) (id : NodeId) :
    (pre ++ toString id ++ post).toList = pre.toList ++ (Nat.toDigits 10 id ++ post.toList) := by
  simp only [String.toList_append, Nat.toString_eq_repr, Nat.toList_repr, append_assoc]

theorem labelNode_eq (word : List Char) {post : List Char} (hword : '_' ∉ word) {label : String}
    (h : label.toList = word ++ '_' :: (Nat.toDigits 10 id ++ '_' :: post)) :
    labelNode label = id := by
  have hdrop : label.toList.dropWhile (· != '_') = '_' :: (Nat.toDigits 10 id ++ '_' :: post) := by
    rw [h, dropWhile_append_of_pos]
    · simp
    · intro c hc
      have hne : c ≠ '_' := fun h => hword (h ▸ hc)
      simpa using hne
  have htake : (Nat.toDigits 10 id ++ '_' :: post).takeWhile (· != '_') = Nat.toDigits 10 id := by
    rw [takeWhile_append_of_pos]
    · simp
    · intro c hc
      have hne : c ≠ '_' := fun h => Nat.underscore_not_in_toDigits (h ▸ hc)
      simpa using hne
  rw [labelNode, hdrop, tail_cons, htake, Nat.ofDigitChars_ten_toDigits]

@[simp] theorem labelNode_elseLabel (id : NodeId) : labelNode (elseLabel id) = id :=
  labelNode_eq "lif".toList (by decide) (toList_label "lif_" "_else" id)

@[simp] theorem labelNode_doneLabel (id : NodeId) : labelNode (doneLabel id) = id :=
  labelNode_eq "lif".toList (by decide) (toList_label "lif_" "_done" id)

@[simp] theorem labelNode_startLabel (id : NodeId) : labelNode (startLabel id) = id :=
  labelNode_eq "lwhile".toList (by decide) (toList_label "lwhile_" "_start" id)

@[simp] theorem labelNode_endLabel (id : NodeId) : labelNode (endLabel id) = id :=
  labelNode_eq "lwhile".toList (by decide) (toList_label "lwhile_" "_end" id)

theorem label_ne (pre : String) {post post' : String} (h : post ≠ post') (id : NodeId) :
    pre ++ toString id ++ post ≠ pre ++ toString id ++ post' := by
  intro heq
  have heq := congrArg String.toList heq
  rw [toList_label, toList_label, append_cancel_left_eq, append_cancel_left_eq] at heq
  exact h (String.toList_inj.1 heq)

theorem elseLabel_ne_doneLabel (id : NodeId) : elseLabel id ≠ doneLabel id :=
  label_ne "lif_" (by decide) id

theorem startLabel_ne_endLabel (id : NodeId) : startLabel id ≠ endLabel id :=
  label_ne "lwhile_" (by decide) id

/-! ## The labels of statements -/

mutual

theorem labelNode_mem (s : Stmt) (h : l ∈ s.labels) : labelNode l ∈ s.nodeIds := by
  match s with
  | .block stmts =>
    rw [Stmt.labels] at h
    rw [Stmt.nodeIds]
    exact labelNode_mem_stmts stmts h
  | .ifThen id _ thenBranch =>
    rw [Stmt.nodeIds]
    simp only [Stmt.labels, mem_append, mem_cons, not_mem_nil, or_false] at h
    rcases h with h | rfl | rfl
    · exact mem_cons_of_mem _ (labelNode_mem thenBranch h)
    · simp
    · simp
  | .ifElse id _ thenBranch elseBranch =>
    rw [Stmt.nodeIds]
    simp only [Stmt.labels, mem_append, mem_cons, not_mem_nil, or_false] at h
    rcases h with h | rfl | h | rfl
    · exact mem_cons_of_mem _ (mem_append_left _ (labelNode_mem thenBranch h))
    · simp
    · exact mem_cons_of_mem _ (mem_append_right _ (labelNode_mem elseBranch h))
    · simp
  | .while id _ body =>
    rw [Stmt.nodeIds]
    simp only [Stmt.labels, mem_append, mem_cons, not_mem_nil, or_false] at h
    rcases h with rfl | h | rfl
    · simp
    · exact mem_cons_of_mem _ (labelNode_mem body h)
    · simp
  | .print _ => simp [Stmt.labels] at h
  | .expr _ => simp [Stmt.labels] at h

theorem labelNode_mem_stmts (ss : List Stmt) (h : l ∈ stmtsLabels ss) :
    labelNode l ∈ stmtsNodeIds ss := by
  match ss with
  | [] => simp [stmtsLabels] at h
  | s :: ss =>
    rw [stmtsNodeIds]
    rw [stmtsLabels] at h
    rcases mem_append.1 h with h | h
    · exact mem_append_left _ (labelNode_mem s h)
    · exact mem_append_right _ (labelNode_mem_stmts ss h)

end

theorem nodup_append_of_labelNode {ls' : List String} {ids ids' : List NodeId} (hd : ls.Nodup)
    (hd' : ls'.Nodup) (h : ∀ l ∈ ls, labelNode l ∈ ids) (h' : ∀ l ∈ ls', labelNode l ∈ ids')
    (hne : ∀ i ∈ ids, ∀ j ∈ ids', i ≠ j) :
    (ls ++ ls').Nodup :=
  nodup_append.2 ⟨hd, hd', fun l hl l' hl' heq => hne _ (h l hl) _ (h' l' hl') (heq ▸ rfl)⟩

theorem nodup_labels_of_node (ls ls' : List String) {l' : String} (hne : l ≠ l')
    (hl : labelNode l = id) (hl' : labelNode l' = id) (hd : (ls ++ ls').Nodup)
    (h : ∀ k ∈ ls ++ ls', labelNode k ≠ id) : (ls ++ l :: (ls' ++ [l'])).Nodup := by
  have hperm : (ls ++ l :: (ls' ++ [l'])).Perm (l :: l' :: (ls ++ ls')) := by
    refine perm_middle.trans (List.Perm.cons _ ?_)
    rw [← append_assoc]
    exact perm_append_singleton ..
  refine hperm.nodup_iff.2 (nodup_cons.2 ⟨?_, nodup_cons.2 ⟨?_, hd⟩⟩)
  · intro hmem
    rcases mem_cons.1 hmem with hmem | hmem
    · exact hne hmem
    · exact h l hmem hl
  · exact fun hmem => h l' hmem hl'

mutual

/-- **The labels of a statement whose nodes have different numbers are different.** -/
theorem nodup_labels (s : Stmt) (h : s.nodeIds.Nodup) : s.labels.Nodup := by
  match s with
  | .block stmts =>
    rw [Stmt.nodeIds] at h
    rw [Stmt.labels]
    exact nodup_stmtsLabels stmts h
  | .ifThen id _ thenBranch =>
    rw [Stmt.nodeIds, nodup_cons] at h
    rw [Stmt.labels]
    refine nodup_labels_of_node thenBranch.labels [] (elseLabel_ne_doneLabel id) (labelNode_elseLabel id)
      (labelNode_doneLabel id) ?_ fun k hk hid => ?_
    · simpa using nodup_labels thenBranch h.2
    · exact h.1 (hid ▸ labelNode_mem thenBranch (by simpa using hk))
  | .ifElse id _ thenBranch elseBranch =>
    rw [Stmt.nodeIds, nodup_cons, nodup_append] at h
    obtain ⟨hid, ht, he, hne⟩ := h
    rw [Stmt.labels]
    refine nodup_labels_of_node _ _ (elseLabel_ne_doneLabel id) (labelNode_elseLabel id)
      (labelNode_doneLabel id) ?_ fun k hk heq => ?_
    · exact nodup_append_of_labelNode (nodup_labels thenBranch ht) (nodup_labels elseBranch he)
        (fun l => labelNode_mem thenBranch) (fun l => labelNode_mem elseBranch) hne
    · refine hid (heq ▸ ?_)
      rcases mem_append.1 hk with hk | hk
      · exact mem_append_left _ (labelNode_mem thenBranch hk)
      · exact mem_append_right _ (labelNode_mem elseBranch hk)
  | .while id _ body =>
    rw [Stmt.nodeIds, nodup_cons] at h
    rw [Stmt.labels]
    refine nodup_labels_of_node [] body.labels (startLabel_ne_endLabel id) (labelNode_startLabel id)
      (labelNode_endLabel id) ?_ fun k hk hid => ?_
    · simpa using nodup_labels body h.2
    · exact h.1 (hid ▸ labelNode_mem body (by simpa using hk))
  | .print _ => simp [Stmt.labels]
  | .expr _ => simp [Stmt.labels]

theorem nodup_stmtsLabels (ss : List Stmt) (h : (stmtsNodeIds ss).Nodup) :
    (stmtsLabels ss).Nodup := by
  match ss with
  | [] => simp [stmtsLabels]
  | s :: ss =>
    rw [stmtsNodeIds, nodup_append] at h
    obtain ⟨hs, hss, hne⟩ := h
    rw [stmtsLabels]
    exact nodup_append_of_labelNode (nodup_labels s hs) (nodup_stmtsLabels ss hss)
      (fun l => labelNode_mem s) (fun l => labelNode_mem_stmts ss) hne

end

/-! ## Jumps -/

theorem Scope.Appends.mem_of_mem_labels {sc' : Scope} (h : sc.Appends ls sc')
    (hp : sc'.body <+: code) {k : Nat} (hl : (l, k) ∈ code.labels) (hle : sc.body.length ≤ k)
    (hlt : k < sc'.body.length) : l ∈ ls := by
  obtain ⟨added, hb, _, _, rfl⟩ := h
  obtain ⟨rest, rfl⟩ := hp
  obtain ⟨s, hs, hop, hlabel⟩ := Body.mem_labels.1 hl
  have hmem : s ∈ added := by
    rw [getElem?_append_left hlt, hb, getElem?_append_right hle] at hs
    exact mem_of_getElem? hs
  rw [Body.labelNames_eq]
  exact mem_filterMap.2 ⟨s, hmem, by rw [if_pos hop, hlabel]⟩

/-- **A jump to a label that stands in the code once goes there.** -/
theorem Body.labelPosition?_eq {body : Body} (hd : body.labelNames.Nodup) {i : Nat}
    {s : Statement} (hs : body[i]? = some s) (hop : s.op = .label) (hl : s.label? = some l) :
    body.labelPosition? l = some i := by
  have hmem : (l, i) ∈ body.labels := mem_labels.2 ⟨s, hs, hop, hl⟩
  rw [labelPosition?]
  cases hfind : body.labels.reverse.find? (·.1 == l) with
  | none =>
    have hnot := find?_eq_none.1 hfind (l, i) (mem_reverse.2 hmem)
    simp at hnot
  | some e =>
    have he : e.1 = l := by simpa using find?_some hfind
    have hmem' : e ∈ body.labels := mem_reverse.1 (mem_of_find?_eq_some hfind)
    rw [inj_on_of_nodup_map hd hmem' hmem he]
    rfl

theorem Scope.labelPosition?_of_emit (hd : code.labelNames.Nodup)
    (hp : (sc.emit .label none none (.label l)).2.body <+: code) :
    code.labelPosition? l = some sc.body.length :=
  Body.labelPosition?_eq hd (Scope.getElem?_of_emit hp) rfl rfl

end Ssa

end MiniJava
