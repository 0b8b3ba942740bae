import MiniJava.Proofs.Initialization
import MiniJava.Proofs.Lowering.Derivations

/-!
# What statements are emitted for

The roles that are listed along with the lowering are those of the statements that are emitted. Some
roles are about a local, and this local owns the statement. Ties are between statements of one local, so
a variable with several members belongs to one local as a whole.
-/

namespace MiniJava.Ssa

open Ast Build List Variables

variable {names : List String} {owner : String} {m : MethodDecl} {method : Method}

namespace Role

/-- The owners of statements that are numbered from `base` on and have these roles. -/
def owners (base : Nat) (roles : List Role) : Owners := fun id =>
  if id < base then none else roles[id - base]?.bind local?

/-- What a role asks of a statement apart from its operation, in a method with given parameters and
locals whose statements are numbered from `base` on and have these roles so far. -/
def Details (params locals : List VarDecl) (base : Nat) (roles : List Role) (s : Statement) :
    Role → Prop
  | incoming k => k < params.length ∧ s.payload = .position k
  | param x => ∃ k d, params[k]? = some d ∧ d.name = x ∧ s.right? = some (base + k) ∧
      roles[k]? = some (.incoming k)
  | initial x => ∃ d ∈ locals, d.name = x ∧ s.payload = .type d.type
  | assigned x => ∃ o, s.right? = some o ∧ owners base roles o = some x
  | held => s.right?.isSome = true
  | merged _ | temporary => True

def Fits (params locals : List VarDecl) (base : Nat) (roles : List Role) (r : Role) (s : Statement) :
    Prop :=
  r.admits s.op = true ∧ r.Details params locals base roles s

variable {params locals : List VarDecl} {base : Nat} {roles roles' : List Role} {r : Role}
  {s : Statement} {x : String} {id i : Nat}

theorem owners_nil (base : Nat) : owners base [] = fun _ => none := by
  funext id
  simp [owners]

theorem owners_add (base : Nat) (roles : List Role) (i : Nat) :
    owners base roles (base + i) = roles[i]?.bind local? := by
  rw [owners, if_neg (Nat.not_lt.2 (Nat.le_add_right ..)), Nat.add_sub_cancel_left]

theorem exists_of_owners (h : owners base roles id = some x) :
    ∃ i r, id = base + i ∧ roles[i]? = some r ∧ r.local? = some x := by
  rw [owners] at h
  split at h
  · cases h
  · next hle =>
    obtain ⟨r, hr, hx⟩ := Option.bind_eq_some_iff.1 h
    exact ⟨id - base, r, (Nat.add_sub_of_le (Nat.not_lt.1 hle)).symm, hr, hx⟩

theorem owners_mono (hp : roles <+: roles') (h : owners base roles id = some x) :
    owners base roles' id = some x := by
  obtain ⟨i, r, rfl, hr, hx⟩ := exists_of_owners h
  rw [owners_add, getElem?_of_prefix hp hr]
  exact hx

theorem owners_concat (base : Nat) (roles : List Role) (r : Role) :
    owners base (roles ++ [r]) = (owners base roles).set (base + roles.length) r.local? := by
  funext id
  rw [Owners.set]
  split
  · next heq => rw [heq, owners_add, getElem?_concat_length, Option.bind_some]
  · next hne =>
    simp only [owners]
    split
    · rfl
    · next hle =>
      have hpos : id - base ≠ roles.length := fun heq =>
        hne (heq ▸ (Nat.add_sub_of_le (Nat.not_lt.1 hle)).symm)
      rcases Nat.lt_or_gt_of_ne hpos with hlt | hgt
      · rw [getElem?_append_left hlt]
      · rw [getElem?_eq_none (by rw [length_append]; exact hgt),
          getElem?_eq_none (Nat.le_of_lt hgt)]

theorem Fits.mono (h : r.Fits params locals base roles s) (hp : roles <+: roles') :
    r.Fits params locals base roles' s := by
  refine ⟨h.1, ?_⟩
  have hd := h.2
  cases r with
  | param x =>
    obtain ⟨k, d, hk, hx, hright, hin⟩ := hd
    exact ⟨k, d, hk, hx, hright, getElem?_of_prefix hp hin⟩
  | assigned x =>
    obtain ⟨o, ho, hx⟩ := hd
    exact ⟨o, ho, owners_mono hp hx⟩
  | _ => exact hd

theorem isTracked_of_admits (h : r.admits s.op = true) (hr : r.local? ≠ none) : s.isTracked = true := by
  cases r <;> simp_all [admits, local?, Statement.isTracked, Op.definesValue, Op.isMerge]

end Role

/-! ## Scopes with roles -/

namespace Scope

structure HasRoles (params locals : List VarDecl) (base : Nat) (roles : List Role) (sc : Scope) :
    Prop where
  owned : sc.body.Owned ((params ++ locals).map (·.name)) base (Role.owners base roles)
  next : sc.nextId = base + sc.body.length
  fits : List.Forall₂ (Role.Fits params locals base roles) roles sc.body

/-- The code so far has these roles, and each local is bound to a statement that it owns. -/
structure InRoles (params locals : List VarDecl) (base : Nat) (roles : List Role) (sc : Scope) :
    Prop extends HasRoles params locals base roles sc where
  bound : ∀ x b, sc.locals.find? x = some b → Role.owners base roles b = some x

variable {params locals : List VarDecl} {base : Nat} {roles roles' : List Role} {sc sc' : Scope}
  {r : Role} {x : String} {b : StmtId}

theorem inRoles_beginMethod (params locals : List VarDecl) (sc : Scope) :
    sc.beginMethod.InRoles params locals sc.nextId [] := by
  have howned : sc.beginMethod.body.Owned ((params ++ locals).map (·.name)) sc.nextId
      fun _ => none := sc.owned_beginMethod.body
  rw [← Role.owners_nil sc.nextId] at howned
  exact ⟨⟨howned, rfl, .nil⟩, fun x b hx => by cases hx⟩

namespace HasRoles

section

variable (h : sc.HasRoles params locals base roles)
include h

theorem length_eq : roles.length = sc.body.length :=
  h.fits.length_eq

theorem nextId_eq : sc.nextId = base + roles.length := by
  rw [h.next, h.length_eq]

theorem exists_stmt (hb : Role.owners base roles b = some x) : ∃ s ∈ sc.body, s.id = b := by
  obtain ⟨i, r, rfl, hr, _⟩ := Role.exists_of_owners hb
  have hi : i < sc.body.length := h.length_eq ▸ lt_of_getElem? hr
  exact ⟨_, getElem_mem hi, h.owned.id_eq (getElem?_eq_getElem hi)⟩

theorem mem_names (hb : Role.owners base roles b = some x) :
    x ∈ (params ++ locals).map (·.name) := by
  obtain ⟨s, hs, rfl⟩ := h.exists_stmt hb
  exact h.owned.named s hs x hb

theorem congr (hb : sc'.body = sc.body) (hn : sc'.nextId = sc.nextId) :
    sc'.HasRoles params locals base roles :=
  ⟨hb ▸ h.owned, hn ▸ hb ▸ h.next, hb ▸ h.fits⟩

theorem append {s : Statement} (hid : s.id = sc.nextId) (hr : r.Fits params locals base roles s)
    (hx : ∀ x, r.local? = some x → x ∈ (params ++ locals).map (·.name))
    (hm : ∀ o ∈ s.mergeOperands, Role.owners base roles o = r.local? ∧ r.local? ≠ none)
    (hb : sc'.body = sc.body ++ [s]) (hn : sc'.nextId = sc.nextId + 1) :
    sc'.HasRoles params locals base (roles ++ [r]) := by
  have hnone : ∀ (own : Owners) (body : Body),
      OwnedBindings own body (Bindings.find? .empty) := fun _ _ y _ hy => by cases hy
  have howned : Scope.Owned ((params ++ locals).map (·.name)) base (Role.owners base roles)
      { sc with locals := .empty } := ⟨h.owned, h.next, hnone _ _⟩
  have happend : Scope.Owned ((params ++ locals).map (·.name)) base
      ((Role.owners base roles).set sc.nextId r.local?) { sc' with locals := .empty } := by
    refine howned.append hid hx (Role.isTracked_of_admits hr.1) (fun o ho => ?_) hb hn (hnone _ _)
    obtain ⟨heq, hne⟩ := hm o ho
    obtain ⟨x, hx⟩ := Option.ne_none_iff_exists'.1 hne
    exact ⟨h.exists_stmt (heq.trans hx), heq, hne⟩
  have hp : roles <+: roles ++ [r] := prefix_append ..
  rw [h.nextId_eq, ← Role.owners_concat] at happend
  refine ⟨happend.body, happend.next, ?_⟩
  rw [hb]
  exact rel_append (h.fits.imp fun _ _ hf => hf.mono hp) (.cons (hr.mono hp) .nil)

theorem mem_names_of_fits {s : Statement} (hr : r.Fits params locals base roles s)
    (hm : ∀ x, r ≠ .merged x) (hx : r.local? = some x) : x ∈ (params ++ locals).map (·.name) := by
  obtain ⟨_, hd⟩ := hr
  cases r with
  | param y =>
    cases hx
    obtain ⟨k, d, hk, rfl, _, _⟩ := hd
    exact mem_map_of_mem (mem_append_left _ (mem_of_getElem? hk))
  | initial y =>
    cases hx
    obtain ⟨d, hd, rfl, _⟩ := hd
    exact mem_map_of_mem (mem_append_right _ hd)
  | assigned y =>
    cases hx
    obtain ⟨o, _, ho⟩ := hd
    exact h.mem_names ho
  | merged y => exact absurd rfl (hm y)
  | incoming | held | temporary => cases hx

theorem emit (op : Op) (left? right? : Option StmtId) (payload : Payload)
    (hr : r.Fits params locals base roles ⟨sc.nextId, op, left?, right?, payload, none, none, none⟩)
    (hm : ∀ x, r ≠ .merged x) :
    (sc.emit op left? right? payload).2.HasRoles params locals base (roles ++ [r]) := by
  refine h.append rfl hr (fun x => h.mem_names_of_fits hr hm) (fun o ho => ?_) rfl rfl
  rw [Owned.mergeOperands_eq_nil (Role.isMerge_of_admits hr.1 hm)] at ho
  cases ho

theorem emitBound (x : String) (op : Op) (value? : Option StmtId) (payload : Payload)
    (hr : r.Fits params locals base roles ⟨sc.nextId, op, value?, value?, payload, none, none, none⟩)
    (hm : ∀ x, r ≠ .merged x) :
    (sc.emitBound x op value? payload).HasRoles params locals base (roles ++ [r]) :=
  (h.emit op value? value? payload hr hm).congr rfl rfl

theorem owners_nextId (r : Role) : Role.owners base (roles ++ [r]) sc.nextId = r.local? := by
  rw [h.nextId_eq, Role.owners_add, getElem?_concat_length, Option.bind_some]

end

end HasRoles

namespace InRoles

section

variable (h : sc.InRoles params locals base roles)
include h

theorem back (h' : sc'.HasRoles params locals base roles') (hp : roles <+: roles')
    (hl : ∀ x, sc'.locals.find? x = sc.locals.find? x) : sc'.InRoles params locals base roles' :=
  ⟨h', fun x b hx => Role.owners_mono hp (h.bound x b (hl x ▸ hx))⟩

theorem withShadow (shadow? : Option Bindings) :
    InRoles params locals base roles { sc with shadow? } :=
  ⟨h.toHasRoles.congr rfl rfl, h.bound⟩

theorem emit (op : Op) (left? right? : Option StmtId) (payload : Payload)
    (hr : r.Fits params locals base roles ⟨sc.nextId, op, left?, right?, payload, none, none, none⟩)
    (hm : ∀ x, r ≠ .merged x) :
    (sc.emit op left? right? payload).2.InRoles params locals base (roles ++ [r]) :=
  h.back (h.toHasRoles.emit op left? right? payload hr hm) (prefix_append ..) fun _ => rfl

theorem emit_temporary (op : Op) (left? right? : Option StmtId) (payload : Payload)
    (hop : Role.temporary.admits op = true) :
    (sc.emit op left? right? payload).2.InRoles params locals base (roles ++ [.temporary]) :=
  h.emit op left? right? payload ⟨hop, trivial⟩ (by simp)

end

theorem bind (h : sc.HasRoles params locals base roles)
    (h' : sc'.HasRoles params locals base (roles ++ [r])) (hr : r.local? = some x)
    (hl : ∀ y, sc'.locals.find? y = if y = x then some sc.nextId else sc.locals.find? y)
    (hold : ∀ y b, y ≠ x → sc.locals.find? y = some b → Role.owners base roles b = some y) :
    sc'.InRoles params locals base (roles ++ [r]) := by
  refine ⟨h', fun y b hy => ?_⟩
  rw [hl] at hy
  split at hy
  · next heq =>
    cases hy
    rw [h.owners_nextId, hr, heq]
  · next hne => exact Role.owners_mono (prefix_append ..) (hold y b hne hy)

end InRoles

end Scope

/-! ## What happened -/

/-- The code so far has roles that agree with what happened since there were only the first of them: what
a local is read from belongs to it, and what belongs to it is bound to it or ties its values. -/
structure Logs (params locals : List VarDecl) (base : Nat) (first : List Role) (log : List Event)
    (roles : List Role) (sc : Scope) : Prop extends Scope.InRoles params locals base roles sc where
  isPrefix : first <+: roles
  reads : ∀ {x b p}, .read x b p ∈ log → Role.owners base roles b = some x
  binds : ∀ {q r x}, first.length ≤ q → roles[q]? = some r → r.local? = some x → r ≠ .merged x →
    .bind x q ∈ log

section Lowering

variable {params locals : List VarDecl} {base : Nat} {first roles : List Role} {log log' : List Event}
  {sc sc' : Scope}

namespace Logs

theorem of_inRoles {new : List Role} (h : sc.InRoles params locals base (roles ++ new))
    (hnew : ∀ r ∈ new, ∀ x, r.local? = some x → r = .merged x) :
    Logs params locals base roles [] (roles ++ new) sc := by
  refine ⟨h, prefix_append .., nofun, fun {q r x} hq hr hx hm => ?_⟩
  rw [getElem?_append_right hq] at hr
  exact absurd (hnew r (mem_of_getElem? hr) x hx) hm

theorem trans {mid : List Role} (h : Logs params locals base first log mid sc)
    (h' : Logs params locals base mid log' roles sc') :
    Logs params locals base first (log ++ log') roles sc' := by
  refine ⟨h'.toInRoles, h.isPrefix.trans h'.isPrefix, fun hr => ?_, fun {q r x} hq hr hx hm => ?_⟩
  · rcases mem_append.1 hr with hr | hr
    · exact Role.owners_mono h'.isPrefix (h.reads hr)
    · exact h'.reads hr
  · by_cases hlt : q < mid.length
    · obtain ⟨more, rfl⟩ := h'.isPrefix
      rw [getElem?_append_left hlt] at hr
      exact mem_append_left _ (h.binds hq hr hx hm)
    · exact mem_append_right _ (h'.binds (Nat.not_lt.1 hlt) hr hx hm)

theorem temporary (h : sc.InRoles params locals base roles) (op : Op)
    (left? right? : Option StmtId) (payload : Payload) (hop : Role.temporary.admits op = true) :
    Logs params locals base roles [] (roles ++ [.temporary]) (sc.emit op left? right? payload).2 :=
  .of_inRoles (h.emit_temporary op left? right? payload hop) (by simp [Role.local?])

theorem back (h : Logs params locals base first log roles sc)
    (h' : sc'.InRoles params locals base roles) : Logs params locals base first log roles sc' :=
  ⟨h', h.isPrefix, h.reads, h.binds⟩

theorem bind_mem (h : Logs params locals base first log roles sc) {q : Nat} {s : Statement} {x : String}
    (hs : sc.body[q]? = some s) (hq : first.length ≤ q) (hdef : s.op.definesValue = true)
    (hx : Role.owners base roles s.id = some x) : .bind x q ∈ log := by
  rw [h.owned.id_eq hs, Role.owners_add] at hx
  obtain ⟨r, hr, hlocal⟩ := Option.bind_eq_some_iff.1 hx
  refine h.binds hq hr hlocal ?_
  rintro rfl
  obtain ⟨hlt, hr⟩ := List.getElem?_eq_some_iff.1 hr
  obtain ⟨hlt', rfl⟩ := List.getElem?_eq_some_iff.1 hs
  have hadmits := (h.fits.get hlt hlt').1
  rw [get_eq_getElem, hr, Role.admits, beq_iff_eq] at hadmits
  rw [get_eq_getElem] at hadmits
  rw [hadmits] at hdef
  cases hdef

end Logs

theorem emitArgs_inRoles {values : List StmtId} : ∀ {position : Nat} {ids : List StmtId}
    {roles : List Role} {sc : Scope}, sc.InRoles params locals base roles →
    emitArgs position values sc = .ok ids sc' →
    sc'.InRoles params locals base (roles ++ replicate values.length .temporary) := by
  induction values with
  | nil =>
    intro position ids roles sc hsc h
    obtain ⟨_, rfl⟩ := emitArgs_nil_cases h
    simpa using hsc
  | cons value values ih =>
    intro position ids roles sc hsc h
    obtain ⟨rest, _, hrest⟩ := emitArgs_cons_cases h
    have hfirst := hsc.emit_temporary .arg (some value) none (.position position) rfl
    have hall := ih hfirst hrest
    rwa [append_assoc, singleton_append, ← replicate_succ] at hall

theorem Merges.inRoles {before left right : String → StmtId}
    (hm : Merges before left right names sc sc') : ∀ {roles : List Role},
    sc.HasRoles params locals base roles →
    (∀ x ∈ names, Role.owners base roles (left x) = some x ∧ Role.owners base roles (right x) = some x) →
    (∀ x, x ∉ names → ∀ b, sc.locals.find? x = some b → Role.owners base roles b = some x) →
    sc'.InRoles params locals base (roles ++ names.map .merged) := by
  induction hm with
  | nil sc =>
    intro roles hsc _ hother
    rw [map_nil, append_nil]
    exact ⟨hsc, fun x b hx => hother x not_mem_nil b hx⟩
  | @cons y ys sc sc₁ sc' hstep _ ih =>
    intro roles hsc hnames hother
    obtain ⟨hl, hr⟩ := hnames y mem_cons_self
    have hmono : ∀ {b x}, Role.owners base roles b = some x →
        Role.owners base (roles ++ [.merged y]) b = some x := Role.owners_mono (prefix_append ..)
    have hfirst : sc₁.HasRoles params locals base (roles ++ [.merged y]) := by
      refine hsc.append (s := unifyOf sc.nextId (left y) (right y)) rfl ⟨rfl, trivial⟩ (fun x hx => ?_)
        (fun o ho => ?_) hstep.body hstep.nextId
      · cases hx
        exact hsc.mem_names hl
      · rcases (by simpa [unifyOf, Statement.mergeOperands] using ho : o = left y ∨ o = right y) with
          rfl | rfl
        · exact ⟨hl, by simp [Role.local?]⟩
        · exact ⟨hr, by simp [Role.local?]⟩
    have hall := ih hfirst (fun x hx => ?_) fun x hx b hb => ?_
    · rwa [append_assoc, singleton_append, ← map_cons] at hall
    · obtain ⟨hl, hr⟩ := hnames x (mem_cons_of_mem _ hx)
      exact ⟨hmono hl, hmono hr⟩
    · rw [hstep.locals] at hb
      split at hb
      · next heq =>
        cases hb
        rw [hsc.owners_nextId, heq]
        rfl
      · next hne => exact hmono (hother x (by simp [hne, hx]) b hb)

theorem Joins.logs {before p q : String → Option StmtId} (hj : Joins names before p q sc sc')
    (h : sc.HasRoles params locals base roles)
    (hp : ∀ x b, p x = some b → Role.owners base roles b = some x)
    (hq : ∀ x b, q x = some b → Role.owners base roles b = some x) :
    Logs params locals base roles [] (roles ++ names.map .merged) sc' := by
  obtain ⟨_, left, right, _, hm, hmem, hother⟩ := hj
  refine .of_inRoles (hm.inRoles h (fun x hx => ?_) fun x hx b hb => ?_) (by simp [Role.local?])
  · obtain ⟨_, hl, hr⟩ := hmem x hx
    exact ⟨hp x _ hl, hq x _ hr⟩
  · exact hp x b ((hother x hx).2.1.trans hb)

/-- **Lowered code has the roles that are listed for it.** -/
theorem Lowers.logs {labels : List String} {ctx out : List StmtId}
    (h : Lowers labels ctx sc log roles out sc') : ∀ {first : List Role},
    sc.InRoles params locals base first →
    Logs params locals base first log (first ++ roles) sc' := by
  induction h with
  | skip sc =>
    intro first hsc
    exact .of_inRoles (by simpa using hsc) (forall_mem_nil _)
  | @read ctx x b sc hx =>
    intro first hsc
    rw [append_nil]
    refine ⟨hsc, prefix_refl _, fun hr => ?_, fun hq hr => ?_⟩
    · cases List.mem_singleton.1 hr
      exact hsc.bound x b hx
    · exact absurd (lt_of_getElem? hr) (Nat.not_lt.2 hq)
  | @emit ctx out op left? right? payload r sc hr =>
    intro first hsc
    obtain ⟨hadmits, hlocal, halone, _, hheld, _⟩ := Role.isPlain_iff.1 hr
    refine .of_inRoles (hsc.emit op left? right? payload ⟨hadmits, ?_⟩ ?_) (by simp [hlocal])
    · cases r with
      | held => exact hheld rfl
      | incoming =>
        rw [beq_iff_eq.1 hadmits] at halone
        cases halone
      | temporary => trivial
      | _ => cases hlocal
    · rintro x rfl
      cases hlocal
  | @call ctx values ids t sc sc₁ method ha =>
    intro first hsc
    have hargs := emitArgs_inRoles hsc ha
    rw [← append_assoc]
    exact (Logs.of_inRoles hargs (by simp [Role.local?])).trans (.temporary hargs _ _ _ _ rfl)
  | @assign ctx out log roles x old v sc sc₁ hx _ _ _ ih =>
    intro first hsc
    have hvalue := ih hsc
    have hemit := hvalue.toHasRoles.emit (r := .assigned x) .assignVar (some v) (some old) (.name x)
      ⟨rfl, old, rfl, Role.owners_mono (prefix_append ..) (hsc.bound x old hx)⟩ (by simp)
    have hrebind : Scope.HasRoles params locals base _
        ((sc₁.emit .assignVar (some v) (some old) (.name x)).2.rebind x sc₁.nextId) :=
      hemit.congr rfl rfl
    have hbind := Scope.InRoles.bind hvalue.toHasRoles hrebind rfl
      (fun y => Scope.locals_rebind ..) fun y b _ hy => hvalue.bound y b hy
    rw [← append_assoc]
    refine hvalue.trans ⟨hbind, prefix_append .., fun hr => ?_, fun {q r y} hq hr hy _ => ?_⟩
    · cases List.mem_singleton.1 hr
    · obtain ⟨hlt, hr⟩ := List.getElem?_eq_some_iff.1 hr
      rw [length_append, length_singleton] at hlt
      obtain rfl := Nat.le_antisymm (Nat.le_of_lt_succ hlt) hq
      rw [getElem_concat_length rfl] at hr
      obtain rfl := hr
      cases hy
      rw [hvalue.length_eq]
      exact mem_singleton_self _
  | trans _ _ ih ih' =>
    intro first hsc
    rw [← append_assoc]
    exact (ih hsc).trans (ih' (ih hsc).toInRoles)
  | @branch ctx log log' roles roles' id cond sc sc₂ sc₃ sc' _ _ _ _ hj iht ihe =>
    intro first hsc
    have hjump := Logs.temporary hsc .branchUnless (some cond) none (.label (elseLabel id)) rfl
    have hstart : Logs params locals base first [] _ (sc.thenStart id cond) :=
      hjump.back (hjump.withShadow _)
    have hthen := iht hstart.toInRoles
    have hleave := Logs.temporary hthen.toInRoles .jump none none (.label (doneLabel id)) rfl
    have hlabel := Logs.temporary hleave.toInRoles .label none none (.label (elseLabel id)) rfl
    -- The second branch starts with the bindings from before the first.
    have hback : Logs params locals base _ [] _ (sc₂.elseStart id) :=
      hlabel.back (hsc.back (hlabel.toHasRoles.congr rfl rfl) (by simp) hj.thenBack)
    have helse := ihe hback.toInRoles
    have hdone := Logs.temporary helse.toInRoles .label none none (.label (doneLabel id)) rfl
    have hties := hj.joins.logs (hdone.toHasRoles.congr rfl rfl)
      (fun x b hx => Role.owners_mono (by simp) (hthen.bound x b hx))
      fun x b hx => Role.owners_mono (by simp) (helse.bound x b hx)
    have hall := (hstart.trans hthen).trans ((hleave.trans hback).trans ((helse.trans hdone).trans hties))
    simpa using hall
  | @loop ctx log log' roles roles' id cond sc sc₁ sc₂ sc' _ _ _ hj ihc ihb =>
    intro first hsc
    have hstart : Logs params locals base first [] _ (sc.loopStart id) :=
      .temporary (hsc.withShadow (some .empty)) .label none none (.label (startLabel id)) rfl
    have hcond := ihc hstart.toInRoles
    have hjump : Logs params locals base _ [] _ (sc₁.bodyStart id cond) :=
      .temporary (hcond.withShadow (some .empty)) .branchUnless (some cond) none
        (.label (endLabel id)) rfl
    have hbody := ihb hjump.toInRoles
    have hback := Logs.temporary hbody.toInRoles .jump none none (.label (startLabel id)) rfl
    have hend := Logs.temporary hback.toInRoles .label none none (.label (endLabel id)) rfl
    have hround := ((hstart.trans hcond).trans (hjump.trans hbody)).trans (hback.trans hend)
    have hjoin : ∀ {mid : Scope} {outer? : Option Bindings} {names : List String},
        Joins names sc₁.locals.find? sc₁.locals.find? sc₂.locals.find?
          { sc₂.bodyEnd id with shadow? := outer? } mid →
        Logs params locals base _ [] (_ ++ names.map .merged) mid := fun hj =>
      hj.logs (hend.toHasRoles.congr rfl rfl)
        (fun x b hx => Role.owners_mono (by simp) (hcond.bound x b hx))
        fun x b hx => Role.owners_mono (by simp) (hbody.bound x b hx)
    rcases hj with ⟨_, hj⟩ | ⟨mid, names, names', hnames, hj, hj'⟩
    · simpa using hround.trans (hjoin hj)
    · have hmid := hjoin hj
      have hties := hj'.logs (hmid.toHasRoles.congr rfl rfl)
        (fun x b hx => Role.owners_mono (by simp) (hsc.bound x b hx)) hmid.bound
      simpa [hnames] using (hround.trans hmid).trans hties

end Lowering

/-! ## Methods -/

section Methods

variable {params locals : List VarDecl} {base : Nat} {sc' : Scope}

theorem Opens.hasRoles {sc₀ sc : Scope} {ps ls : List VarDecl} {k : Nat} (h : Opens sc₀ ps k ls sc)
    (hps : ps <+: params) (hls : ls ⊆ locals) : ∃ roles,
    roles = (List.range ps.length).map .incoming ++ (ps.take k).map (.param ·.name) ++
      ls.map (.initial ·.name) ∧
    sc.HasRoles params locals sc₀.nextId roles ∧ ∀ x b, sc.locals.find? x = some b →
      x ∈ (ps.drop k).map (·.name) ∨ Role.owners sc₀.nextId roles b = some x := by
  induction h with
  | start =>
    have hstart := sc₀.inRoles_beginMethod params locals
    exact ⟨[], rfl, hstart.toHasRoles, fun x b hx => Or.inr (hstart.bound x b hx)⟩
  | @parameter ps sc d _ _ ih =>
    obtain ⟨roles, hroles, hsc, hbound⟩ := ih ((prefix_append ..).trans hps) hls
    have hlt : ps.length < params.length := by simpa using hps.length_le
    have hnext := hsc.emitBound (r := .incoming ps.length) d.name .parameter none
      (.position ps.length) ⟨rfl, hlt, rfl⟩ (by simp)
    refine ⟨_, by simp [hroles, range_succ], hnext, fun x b hx => ?_⟩
    rw [Scope.emitBound, Bindings.find?_insert] at hx
    split at hx
    · next heq => exact Or.inl (by simp [heq])
    · refine (hbound x b hx).imp (fun hmem => ?_) fun hown => Role.owners_mono (prefix_append ..) hown
      rw [drop_zero, map_append] at *
      exact mem_append_left _ hmem
  | @copy ps k sc d _ hd ih =>
    obtain ⟨roles, hroles, hsc, hbound⟩ := ih hps hls
    obtain ⟨hk, hget⟩ := List.getElem?_eq_some_iff.1 hd
    have hin : roles[k]? = some (.incoming k) := by simp [hroles, getElem?_append_left, hk]
    have hnext := hsc.emitBound (r := .param d.name) d.name .assignVar (some (sc₀.nextId + k))
      (.name d.name) ⟨rfl, k, d, hget ▸ List.prefix_iff_getElem?.1 hps k hk, rfl, rfl, hin⟩ (by simp)
    refine ⟨_, by simp [hroles, take_add_one, hd], hnext, fun x b hx => ?_⟩
    rw [Scope.emitBound, Bindings.find?_insert] at hx
    split at hx
    · next heq =>
      cases hx
      exact Or.inr (by rw [hsc.owners_nextId, heq]; rfl)
    · next hne =>
      refine (hbound x b hx).imp (fun hmem => ?_) fun hown => Role.owners_mono (prefix_append ..) hown
      rw [drop_eq_getElem_cons hk, hget, map_cons, mem_cons] at hmem
      exact hmem.resolve_left hne
  | @declare ps ls sc d _ _ ih =>
    obtain ⟨roles, hroles, hsc, hbound⟩ := ih hps fun _ hd => hls (mem_append_left _ hd)
    have hnext := hsc.emitBound (r := .initial d.name) d.name .null none (.type d.type)
      ⟨rfl, d, hls (by simp), rfl, rfl⟩ (by simp)
    refine ⟨_, by simp [hroles], hnext, fun x b hx => ?_⟩
    rw [Scope.emitBound, Bindings.find?_insert] at hx
    split at hx
    · next heq =>
      cases hx
      exact Or.inr (by rw [hsc.owners_nextId, heq]; rfl)
    · exact (hbound x b hx).imp_right fun hown => Role.owners_mono (prefix_append ..) hown

theorem nodup_names_of_lowerMethod {sc : Scope} (h : lowerMethod owner m sc = .ok method sc') :
    ((m.params ++ m.locals).map (·.name)).Nodup := by
  obtain ⟨_, _, _, _, _, hopens, _⟩ := lowerMethod_cases h
  exact hopens.bindings.1

theorem Opens.logs {sc sc₁ : Scope} (h : Opens sc m.params m.params.length m.locals sc₁) :
    Logs m.params m.locals sc.nextId []
      (boundFrom m.params.length ((m.params ++ m.locals).map (·.name)))
      ((range m.params.length).map .incoming ++ m.params.map (.param ·.name) ++
        m.locals.map (.initial ·.name)) sc₁ := by
  obtain ⟨_, rfl, hsc, hbound⟩ := h.hasRoles (prefix_refl _) (List.Subset.refl _)
  rw [take_length] at hsc hbound
  refine ⟨⟨hsc, fun x b hx => (hbound x b hx).resolve_left (by simp)⟩, nil_prefix, fun hr => ?_,
    fun {q r x} _ hr hx _ => ?_⟩
  · simp [boundFrom_eq] at hr
  · -- The incoming values come first and belong to no local, and then there is one role for each name.
    have hnames : (m.params.map (Role.param ·.name) ++ m.locals.map (Role.initial ·.name)).map
        Role.local? = ((m.params ++ m.locals).map (·.name)).map some := by
      simp [Role.local?, Function.comp_def]
    rw [append_assoc, getElem?_append] at hr
    split at hr
    · obtain ⟨k, _, rfl⟩ := mem_map.1 (mem_of_getElem? hr)
      cases hx
    · next hle =>
      have hname := congrArg (Option.map Role.local?) hr
      rw [← getElem?_map, hnames, getElem?_map, Option.map_some, hx] at hname
      obtain ⟨_, hname, ⟨⟩⟩ := Option.map_eq_some_iff.1 hname
      rw [length_map, length_range] at hname hle
      rw [boundFrom_eq, mem_map]
      exact ⟨(x, q), mem_zipIdx_iff_le_and_getElem?_sub.2 ⟨Nat.not_lt.1 hle, hname⟩, rfl⟩

/-- **The code of a method has the roles that are listed for it.** -/
theorem lowerMethod_logs {sc : Scope} (h : lowerMethod owner m sc = .ok method sc') :
    ∃ last : Scope, last.body = method.body ∧
      Logs m.params m.locals sc.nextId [] (methodEvents m sc) (methodRoles m sc) last := by
  obtain ⟨sc₁, sc₂, result, sc₃, h₁, hopens, h₂, h₃, hbody, _⟩ := lowerMethod_cases h
  have hprologue := hopens.logs
  have hall := hprologue.trans ((lowerBody_lowers h₂ h₃).logs hprologue.toInRoles)
  refine ⟨_, hbody.symm, ?_⟩
  rw [methodEvents_of_ok h₁ h₂, methodRoles, Build.eventsAfter_of_ok h₁, Build.eventsAfter_of_ok h₂]
  simpa using hall

/-- **The code of an entry point has the roles that are listed for it.** -/
theorem lowerMain_hasRoles {main : MainClass} {sc : Scope}
    (h : lowerMain main sc = .ok method sc') : ∃ last : Scope, last.body = method.body ∧
      last.HasRoles [] [] sc.nextId (mainRoles main sc) := by
  obtain ⟨sc₁, h₁, hbody, _⟩ := lowerMain_cases h
  have hall := (lowerStmt_lowers main.body (List.Subset.refl _) h₁).logs (sc.inRoles_beginMethod [] [])
  exact ⟨sc₁, hbody.symm, hall.toHasRoles⟩

end Methods

/-! ## Variables -/

/-- The statements of a body are emitted for these purposes, and its variables keep locals apart: a
variable is a single statement, or all its members are emitted to hold one and the same local. -/
structure Body.KeepsLocalsApart (roles : List Role) (body : Body) : Prop where
  admitted : List.Forall₂ (fun r s => r.admits s.op = true) roles body
  separate : ∃ vs, build body = .ok vs ∧ ∀ v ∈ vs.all, (∃ i, v.members = [i]) ∨
    ∃ x, ∀ i ∈ v.members, ∃ r, roles[i]? = some r ∧ r.local? = some x

theorem Scope.HasRoles.members_cases {params locals : List VarDecl} {base : Nat} {roles : List Role}
    {sc : Scope} (h : sc.HasRoles params locals base roles) {c : Nat} (hc : c ∈ sc.body.cells) :
    (∃ i, (variableOf sc.body.tracked c).members = [i]) ∨
      ∃ x, ∀ i ∈ (variableOf sc.body.tracked c).members,
        ∃ r, roles[i]? = some r ∧ r.local? = some x := by
  have hshared : ∀ i ∈ (variableOf sc.body.tracked c).members,
      ∀ j ∈ (variableOf sc.body.tracked c).members, i = j ∨
        roles[i]?.bind Role.local? = roles[j]?.bind Role.local? ∧
          roles[i]?.bind Role.local? ≠ none := by
    intro i hi j hj
    have hi := mem_members_variableOf.1 hi
    have hj := mem_members_variableOf.1 hj
    obtain ⟨s, hs, _⟩ := Body.cellAt?_eq_some.1 hi
    obtain ⟨t, ht, _⟩ := Body.cellAt?_eq_some.1 hj
    rw [← h.owned.distinct.cell?_eq_cellAt? hs] at hi
    rw [← h.owned.distinct.cell?_eq_cellAt? ht] at hj
    have hown := h.owned.eq_of_cell?_eq hi hj
    rw [h.owned.id_eq hs, h.owned.id_eq ht, Role.owners_add, Role.owners_add] at hown
    exact hown.imp_left Nat.add_left_cancel
  have hnodup := nodup_members_variableOf sc.body c
  obtain ⟨i, hi⟩ := Body.mem_cells.1 hc
  have hmem := mem_members_variableOf.2 hi
  by_cases hone : ∀ j ∈ (variableOf sc.body.tracked c).members, j = i
  · have hperm := (perm_ext_iff_of_nodup hnodup (nodup_singleton i)).2 fun j =>
      ⟨fun hj => mem_singleton.2 (hone j hj), fun hj => mem_singleton.1 hj ▸ hmem⟩
    exact Or.inl ⟨i, perm_singleton.1 hperm⟩
  · push Not at hone
    obtain ⟨j, hj, hne⟩ := hone
    obtain ⟨heq, hsome⟩ := (hshared i hmem j hj).resolve_left fun hij => hne hij.symm
    obtain ⟨x, hx⟩ := Option.ne_none_iff_exists'.1 hsome
    refine Or.inr ⟨x, fun k hk => Option.bind_eq_some_iff.1 ?_⟩
    rcases hshared i hmem k hk with rfl | ⟨hik, _⟩
    · exact hx
    · exact hik.symm.trans hx

theorem Scope.HasRoles.keepsLocalsApart {params locals : List VarDecl} {base : Nat}
    {roles : List Role} {sc : Scope} (h : sc.HasRoles params locals base roles)
    (hpins : ∀ s ∈ sc.body, s.pin? = none) : sc.body.KeepsLocalsApart roles := by
  obtain ⟨vs, hvs⟩ := exists_variables_of_pins hpins
  refine ⟨h.fits.imp fun _ _ hfit => hfit.1, vs, hvs, fun v hv => ?_⟩
  rw [(build_numbers hvs).all] at hv
  obtain ⟨c, hc, rfl⟩ := mem_map.1 hv
  exact h.members_cases hc

/-- **Variables keep locals apart.** In the code of every method and of every entry point, a variable
with several members consists of what was emitted to hold one and the same local: the copy of a
parameter or an initial value, assignments and ties. Copies of operands, incoming values and other
temporaries are variables of their own. -/
theorem variables_hold_one_local :
    (∀ {owner : String} {m : MethodDecl} {method : Method} {sc sc' : Scope},
      lowerMethod owner m sc = .ok method sc' → method.body.KeepsLocalsApart (methodRoles m sc)) ∧
    ∀ {main : MainClass} {method : Method} {sc sc' : Scope},
      lowerMain main sc = .ok method sc' → method.body.KeepsLocalsApart (mainRoles main sc) := by
  constructor
  · intro owner m method sc sc' h
    obtain ⟨settled, hsettled, _, hcode, _⟩ := lowerMethod_settled h
    obtain ⟨last, hlast, hroles⟩ := lowerMethod_logs h
    rw [← hlast]
    refine hroles.keepsLocalsApart fun s hs => ?_
    exact (hsettled.code.plain s (hcode ▸ hlast ▸ hs)).2.2.1
  · intro main method sc sc' h
    obtain ⟨settled, hsettled, _, hcode, _⟩ := lowerMain_settled h
    obtain ⟨last, hlast, hroles⟩ := lowerMain_hasRoles h
    rw [← hlast]
    refine hroles.keepsLocalsApart fun s hs => ?_
    exact (hsettled.code.plain s (hcode ▸ hlast ▸ hs)).2.2.1

/-- Prints `x + (x = 7)` in a branch, so that the first operand is copied and `x` is tied. -/
def copying : MethodDecl where
  returnType := .int
  name := "copying"
  params := []
  locals := [⟨.int, "x"⟩]
  body := [.ifThen 0 (.boolLit true) (.print
    (.binary .add (.var "x") (.assign (.var "x") (.intLit 7))))]
  result := .var "x"

/-- In `copying` the variable of `x` has three members, between which there is the copy of an operand. -/
theorem variables_hold_one_local_copying :
    (∃ method sc', lowerMethod "T" copying {} = .ok method sc' ∧
      methodRoles copying {} = [.initial "x", .temporary, .temporary, .held, .temporary,
        .assigned "x", .temporary, .temporary, .temporary, .temporary, .temporary, .merged "x",
        .temporary] ∧
      method.body.KeepsLocalsApart (methodRoles copying {})) ∧
    ∃ method sc', lowerMain ⟨"Main", .print (.intLit 3)⟩ {} = .ok method sc' ∧
      method.body.KeepsLocalsApart (mainRoles ⟨"Main", .print (.intLit 3)⟩ {}) := by
  constructor
  · obtain ⟨method, sc', h⟩ : ∃ method sc', lowerMethod "T" copying {} = .ok method sc' :=
      Build.exists_of_succeeds (by cbv)
    exact ⟨method, sc', h, by cbv, variables_hold_one_local.1 h⟩
  · obtain ⟨method, sc', h⟩ : ∃ method sc',
        lowerMain ⟨"Main", .print (.intLit 3)⟩ {} = .ok method sc' :=
      Build.exists_of_succeeds (by cbv)
    exact ⟨method, sc', h, variables_hold_one_local.2 h⟩

end MiniJava.Ssa
