import MiniJava.Proofs.Lowering.Roles

/-!
# Reads see the last binding

A local is read from the statement that it is bound to while the code is lowered. On a path through the
finished code, the value there is the one of the last binding of the local on the path: behind an `if`
that of the branch taken, behind a loop that of the last round, or the one from before the loop if there
was none.
-/

namespace MiniJava.Ssa

open Ast Build List

variable {x owner : String} {c : Nat} {m : MethodDecl} {method : Method} {sc sc' : Scope}

/-! ## Paths -/

def LastOn (P : Nat → Prop) (path : List Nat) (q : Nat) : Prop :=
  ∃ before after, path = before ++ q :: after ∧ P q ∧ ∀ r ∈ after, ¬ P r

namespace LastOn

variable {P Q : Nat → Prop} {path : List Nat} {q r : Nat}

theorem concat_self (h : P q) : LastOn P (path ++ [q]) q :=
  ⟨path, [], rfl, h, fun _ hr => by cases hr⟩

theorem concat (h : LastOn P path q) (hr : ¬ P r) : LastOn P (path ++ [r]) q := by
  obtain ⟨before, after, rfl, hq, hafter⟩ := h
  refine ⟨before, after ++ [r], by simp, hq, fun k hk => ?_⟩
  rcases mem_append.1 hk with hk | hk
  · exact hafter k hk
  · obtain rfl := mem_singleton.1 hk
    exact hr

theorem of_imp (h : LastOn P path q) (hq : Q q) (himp : ∀ r, Q r → P r) : LastOn Q path q := by
  obtain ⟨before, after, hpath, _, hafter⟩ := h
  exact ⟨before, after, hpath, hq, fun r hr hQ => hafter r hr (himp r hQ)⟩

end LastOn

/-- **The place of a local is the cell of its last binding on a path.** The induction is on the path
from its end. -/
theorem Annotates.exists_lastOn {code : Body} {log : List Event} {known : Nat → Known}
    {lo hi : Nat} (h : Annotates code log known lo hi 0 code.length)
    (hstart : known 0 ≤ .none code) {path : List Nat} : ∀ {p : Nat},
    code.IsPath (path ++ [p]) → (path ++ [p]).head? = some 0 → (known p).places x = some c →
    ∃ q, LastOn (fun q => .bind x q ∈ log) path q ∧ code.cellAt? q = some c := by
  induction path using reverseRecOn with
  | nil =>
    intro p _ hhead hx
    obtain rfl : p = 0 := Option.some.inj hhead
    rw [hstart.1] at hx
    cases hx
  | append_singleton path q ih =>
    intro p hpath hhead hx
    obtain ⟨hpath, _, hedge⟩ := isChain_append.1 hpath
    obtain ⟨s, hs, hp⟩ := hedge q (by simp) p (by simp)
    obtain ⟨_, _, hafter⟩ := h.edges (Nat.zero_le q) (lt_of_getElem? hs) hs hp
    rw [hafter.1, Known.after] at hx
    dsimp only at hx
    by_cases hbind : .bind x q ∈ log
    · rw [if_pos hbind] at hx
      exact ⟨q, .concat_self hbind, hx⟩
    · rw [if_neg hbind] at hx
      obtain ⟨r, hlast, hcell⟩ := ih hpath (by simpa using hhead) hx
      exact ⟨r, hlast.concat hbind, hcell⟩

/-! ## Reads -/

theorem nodup_labelNames_lowerMethod (h : lowerMethod owner m sc = .ok method sc')
    (hids : (stmtsNodeIds m.body).Nodup) : method.body.labelNames.Nodup := by
  obtain ⟨last, _, ⟨code, hcode, _, _, hlabels⟩, hbody, _⟩ := lowerMethod_settled h
  rw [hbody, hcode, Scope.beginMethod, nil_append, hlabels]
  exact nodup_stmtsLabels m.body hids

theorem lastOn_writes_of_read (h : lowerMethod owner m sc = .ok method sc')
    (hids : (stmtsNodeIds m.body).Nodup) {b : StmtId} {p : Nat}
    (hread : .read x b p ∈ methodEvents m sc) :
    ∃ c, method.body.cell? b = some c ∧ ∀ path, method.body.IsPath (path ++ [p]) →
      (path ++ [p]).head? = some 0 → ∃ q s, method.body[q]? = some s ∧
        (s.op = .assignVar ∨ s.op = .null) ∧
        LastOn (fun q => .bind x q ∈ methodEvents m sc) path q ∧
        LastOn (fun q => method.body.Writes q c) path q := by
  obtain ⟨last, hlast, hlogs⟩ := lowerMethod_logs h
  have howned := hlast ▸ hlogs.owned
  obtain ⟨_, known, hstart, _, hknown⟩ := lowerMethod_flows h howned.distinct howned.tied
    (nodup_labelNames_lowerMethod h hids)
  have hown := hlogs.reads hread
  obtain ⟨t, ht, rfl⟩ := hlogs.exists_stmt hown
  rw [hlast] at ht
  obtain ⟨c, hc⟩ := howned.exists_cell? ht (howned.tracked t ht (by simp [hown]))
  refine ⟨c, hc, fun path hpath hhead => ?_⟩
  obtain ⟨_, _, hplace⟩ := hknown.reads hread
  obtain ⟨q, hq, hcell⟩ := hknown.exists_lastOn hstart hpath hhead (hplace.trans hc)
  obtain ⟨_, _, _, hbind, _⟩ := id hq
  obtain ⟨_, _, s, hs, hop⟩ := hknown.binds hbind
  have hdef : s.op.definesValue = true := by rcases hop with hop | hop <;> rw [hop] <;> rfl
  refine ⟨q, s, hs, hop, hq, hq.of_imp ⟨s, hs, hdef, hcell⟩ ?_⟩
  -- What writes to the cell belongs to the local, and so it binds it.
  rintro k ⟨u, hu, hudef, hucell⟩
  refine hlogs.bind_mem (hlast ▸ hu) (Nat.zero_le k) hudef ?_
  rw [← howned.distinct.cell?_eq_cellAt? hu] at hucell
  rcases howned.eq_of_cell?_eq hucell hc with heq | ⟨heq, _⟩ <;> rw [heq, hown]

theorem getElem?_defs_eq_some_iff {body : Body} {vs : Variables} (hn : Numbers body vs)
    {v i : Nat} (hc : body.cells[v]? = some c) :
    (Liveness.compute body vs).defs[i]? = some (some v) ↔ body.Writes i c := by
  rw [Liveness.getElem?_defs, Option.map_eq_some_iff]
  constructor
  · rintro ⟨s, hs, hdef⟩
    exact (Liveness.def?_eq_some hn hc hs).1 hdef
  · intro hw
    obtain ⟨s, hs, _⟩ := id hw
    exact ⟨s, hs, (Liveness.def?_eq_some hn hc hs).2 hw⟩

/-- **A read sees the last binding.** A local is read from a statement of some variable. On every path
from the start of the method to the read, the last statement that defines this variable is the last one
that binds the local: the copy of a parameter, an initial value, or an assignment. -/
theorem reads_see_last_binding {owner : String} {m : MethodDecl} {method : Method} {sc sc' : Scope}
    (h : lowerMethod owner m sc = .ok method sc') (hids : (stmtsNodeIds m.body).Nodup) :
    ∃ vs, Variables.build method.body = .ok vs ∧ ∀ x b p, .read x b p ∈ methodEvents m sc →
      ∃ v, vs.of? b = some v ∧ ∀ path, method.body.IsPath (path ++ [p]) →
        (path ++ [p]).head? = some 0 → ∃ q s, method.body[q]? = some s ∧
          (s.op = .assignVar ∨ s.op = .null) ∧
          LastOn (fun q => .bind x q ∈ methodEvents m sc) path q ∧
          LastOn (fun q => (Liveness.compute method.body vs).defs[q]? = some (some v)) path q := by
  obtain ⟨last, hsettled, _, hbody, _⟩ := lowerMethod_settled h
  have hpins : ∀ s ∈ method.body, s.pin? = none := fun s hs =>
    (hsettled.code.plain s (hbody ▸ hs)).2.2.1
  obtain ⟨vs, hvs⟩ := exists_variables_of_pins hpins
  have hn := Variables.build_numbers hvs
  refine ⟨vs, hvs, fun x b p hread => ?_⟩
  obtain ⟨c, hc, hpaths⟩ := lastOn_writes_of_read h hids hread
  obtain ⟨v, hv⟩ := List.mem_iff_getElem?.1 (Body.mem_cells_of_cell? hc)
  refine ⟨v, hn.of?_eq_some.2 ⟨c, hc, hv⟩, ?_⟩
  simpa only [getElem?_defs_eq_some_iff hn hv] using hpaths

/-- The result of `sumDown` is read behind a loop with an `if` in it, from the statement that joins the
initial value of `total` and the assignment to it. -/
theorem reads_see_last_binding_sumDown : ∃ method sc' vs v,
    lowerMethod "Sums" sumDown {} = .ok method sc' ∧ (stmtsNodeIds sumDown.body).Nodup ∧
      Variables.build method.body = .ok vs ∧ .read "total" 22 24 ∈ methodEvents sumDown {} ∧
      vs.of? 22 = some v ∧ ∀ path, method.body.IsPath (path ++ [24]) →
        (path ++ [24]).head? = some 0 → ∃ q s, method.body[q]? = some s ∧
          (s.op = .assignVar ∨ s.op = .null) ∧
          LastOn (fun q => .bind "total" q ∈ methodEvents sumDown {}) path q ∧
          LastOn (fun q => (Liveness.compute method.body vs).defs[q]? = some (some v)) path q := by
  obtain ⟨method, sc', h⟩ : ∃ method sc', lowerMethod "Sums" sumDown {} = .ok method sc' :=
    Build.exists_of_succeeds (by cbv)
  have hids : (stmtsNodeIds sumDown.body).Nodup := by decide
  have hread : .read "total" 22 24 ∈ methodEvents sumDown {} := by decide +kernel
  obtain ⟨vs, hvs, hreads⟩ := reads_see_last_binding h hids
  obtain ⟨v, hv, hpaths⟩ := hreads "total" 22 24 hread
  exact ⟨method, sc', vs, v, h, hids, hvs, hread, hv, hpaths⟩

end MiniJava.Ssa
