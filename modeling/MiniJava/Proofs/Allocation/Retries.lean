import MiniJava.Proofs.SingleAssignment

/-!
# Allocating again

A program can be allocated more than once, with another number of registers after a call that failed.
A call that fails leaves the statements it has inserted in their methods, but it does not store the
next free number. So the numbers of these statements are handed out again.
-/

namespace MiniJava.Ssa

open List

namespace Program

variable {p : Program} {k : Nat}

/-- The program after calls with these numbers of registers, whether they succeed or not. -/
def afterCalls (p : Program) (ks : List Nat) : Program := ks.foldl (fun p k => (p.allocate k).1) p

theorem afterCalls_append (p : Program) (ks ks' : List Nat) :
    p.afterCalls (ks ++ ks') = (p.afterCalls ks).afterCalls ks' := foldl_append

/-- Every statement has a number of its own, and no number in use will be handed out. -/
structure FreshNumbers (p : Program) : Prop where
  distinct : (methodIds p.methods).Nodup
  id_lt : ∀ id ∈ methodIds p.methods, id < p.nextId

def LosesNumbers (p : Program) (k : Nat) : Prop :=
  (p.allocate k).2.isOk = false ∧
    (methodIds p.methods).length < (methodIds (p.allocate k).1.methods).length

/-! ## One call -/

theorem ExtendsMethods.length_eq {ms ms' : List Method} {next last : StmtId}
    (h : ExtendsMethods ms next ms' last) :
    (methodIds ms').length = (methodIds ms).length + (last - next) := by
  rw [h.ids.length_eq, length_append, length_range']

theorem SingleAssignment.freshNumbers (hp : p.SingleAssignment) : p.FreshNumbers :=
  ⟨hp.distinct, hp.id_lt⟩

theorem SingleAssignment.of_not_loses (hp : p.SingleAssignment) (h : ¬ p.LosesNumbers k) :
    (p.allocate k).1.SingleAssignment := by
  obtain ⟨last, hext, hnext⟩ := hp.extends k
  have hordered := hext.ordered hp.ordered
  cases hok : (p.allocate k).2.isOk with
  | true =>
    obtain ⟨stats, hstats⟩ := exists_eq_ok_of_isOk hok
    exact hp.allocate (Prod.ext rfl hstats)
  | false =>
    -- Nothing was inserted, so the numbers in use are those from before.
    have hlen : (methodIds (p.allocate k).1.methods).length ≤ (methodIds p.methods).length :=
      Nat.not_lt.1 fun hlt => h ⟨hok, hlt⟩
    rw [hext.length_eq, add_le_iff_nonpos_right, Nat.le_zero, Nat.sub_eq_zero_iff_le] at hlen
    rw [hok] at hnext
    refine ⟨hext.nodup hp, fun id hid => ?_, hordered⟩
    rw [hnext]
    rcases hext.mem_iff.1 hid with hid | hid
    · exact hp.id_lt id hid
    · exact Nat.lt_of_lt_of_le hid.2 hlen

theorem SingleAssignment.of_loses (hp : p.SingleAssignment) (h : p.LosesNumbers k) :
    (methodIds (p.allocate k).1.methods).Nodup ∧
      (p.allocate k).1.nextId ∈ methodIds (p.allocate k).1.methods := by
  obtain ⟨last, hext, hnext⟩ := hp.extends k
  refine ⟨hext.nodup hp, ?_⟩
  have hlen := h.2
  rw [hext.length_eq, Nat.lt_add_right_iff_pos, Nat.sub_pos_iff_lt] at hlen
  rw [h.1] at hnext
  rw [hnext]
  exact hext.mem_iff.2 (Or.inr ⟨Nat.le_refl _, hlen⟩)

/-- **After a call numbers are fresh exactly if it loses none.** -/
theorem SingleAssignment.freshNumbers_iff (hp : p.SingleAssignment) (k : Nat) :
    (p.allocate k).1.FreshNumbers ↔ ¬ p.LosesNumbers k := by
  constructor
  · intro hfresh hloses
    exact Nat.lt_irrefl _ (hfresh.id_lt _ (hp.of_loses hloses).2)
  · exact fun h => (hp.of_not_loses h).freshNumbers

/-! ## Sequences of calls -/

theorem afterCalls_take_succ {ks : List Nat} {n : Nat} (h : ks[n]? = some k) (p : Program) :
    p.afterCalls (ks.take (n + 1)) = ((p.afterCalls (ks.take n)).allocate k).1 := by
  rw [take_add_one, h, afterCalls_append]
  rfl

theorem SingleAssignment.afterCalls (hp : p.SingleAssignment) {ks : List Nat} {n : Nat}
    (h : ∀ i < n, ∀ k, ks[i]? = some k → ¬ (p.afterCalls (ks.take i)).LosesNumbers k) :
    (p.afterCalls (ks.take n)).SingleAssignment := by
  induction n with
  | zero => exact hp
  | succ n ih =>
    have hn := ih fun i hi => h i (Nat.lt_succ_of_lt hi)
    cases hk : ks[n]? with
    | none => rwa [take_add_one, hk, Option.toList_none, append_nil]
    | some k =>
      rw [afterCalls_take_succ hk]
      exact hn.of_not_loses (h n (Nat.lt_succ_self n) k hk)

end Program

/-- **Numbers stay fresh exactly as long as no call loses any.** The program is a lowered one, and it
is allocated for `ks` registers in turn. After each call every statement has a number of its own below
the next free one if and only if no call fails after it has inserted statements. The first call that
does leaves all numbers different, but the next number to be handed out is in use. -/
theorem numbers_stay_fresh {ast : Ast.Program} {p : Program} (h : Program.ofAst ast = .ok p)
    (ks : List Nat) :
    ((∀ n, (p.afterCalls (ks.take n)).FreshNumbers) ↔
      ∀ n k, ks[n]? = some k → ¬ (p.afterCalls (ks.take n)).LosesNumbers k) ∧
    ∀ n k, ks[n]? = some k →
      (∀ i < n, ∀ k, ks[i]? = some k → ¬ (p.afterCalls (ks.take i)).LosesNumbers k) →
      (p.afterCalls (ks.take n)).LosesNumbers k →
      (methodIds (p.afterCalls (ks.take (n + 1))).methods).Nodup ∧
        (p.afterCalls (ks.take (n + 1))).nextId ∈
          methodIds (p.afterCalls (ks.take (n + 1))).methods := by
  have hp := Program.singleAssignment_of_ofAst h
  refine ⟨⟨fun hfresh n => ?_, fun hkeeps n => ?_⟩, fun n k hk hkeeps hloses => ?_⟩
  · -- Before the first call that loses numbers all is well, so there is none.
    induction n using Nat.strong_induction_on with
    | _ n ih =>
      intro k hk
      have hn : (p.afterCalls (ks.take n)).SingleAssignment := hp.afterCalls ih
      rw [← hn.freshNumbers_iff, ← Program.afterCalls_take_succ hk]
      exact hfresh (n + 1)
  · exact (hp.afterCalls fun i _ => hkeeps i).freshNumbers
  · rw [Program.afterCalls_take_succ hk]
    exact (hp.afterCalls hkeeps).of_loses hloses

/-- Two sums, one after the other:

    class M { public static void main(String[] a) { System.out.println(1 + 2); } }
    class A { public int f() { return (1 + 2) + (3 + 4); } } -/
def twoSums : Ast.Program where
  main := ⟨"M", .print (.binary .add (.intLit 1) (.intLit 2))⟩
  classes := [⟨"A", none, [], [⟨.int, "f", [], [], [],
    .binary .add (.binary .add (.intLit 1) (.intLit 2)) (.binary .add (.intLit 3) (.intLit 4))⟩]⟩]

theorem numbers_stay_fresh_twoSums : ∃ p, Program.ofAst twoSums = .ok p ∧
    (p.allocate 0).2.isOk = false ∧ ((p.afterCalls [0]).allocate 2).2.isOk = true ∧
      ∀ n, (p.afterCalls ([0, 2].take n)).FreshNumbers := by
  obtain ⟨p, hp⟩ := @exists_ofAst_ok twoSums (by cbv)
  have hcalls : (Program.ofAst twoSums).toOption.map (fun p =>
      ((p.allocate 0).2.isOk, ((p.afterCalls [0]).allocate 2).2.isOk,
        (methodIds p.methods).length, (methodIds (p.allocate 0).1.methods).length)) =
      some (false, true, 12, 12) := by decide +kernel
  rw [hp] at hcalls
  simp only [Except.toOption, Option.map_some, Option.some.injEq, Prod.mk.injEq] at hcalls
  obtain ⟨hfails, hok, hlen, hlen'⟩ := hcalls
  refine ⟨p, hp, hfails, hok, ((numbers_stay_fresh hp [0, 2]).1.2 fun n k hk hloses => ?_)⟩
  rcases n with _ | _ | n
  · obtain rfl : 0 = k := Option.some.inj hk
    have hloses : p.LosesNumbers 0 := hloses
    exact absurd hloses.2 (by rw [hlen, hlen']; exact Nat.lt_irrefl _)
  · obtain rfl : 2 = k := Option.some.inj hk
    have hloses : (p.afterCalls [0]).LosesNumbers 2 := hloses
    exact absurd (hok.symm.trans hloses.1) (by decide)
  · cases hk

/-- **Two statements with one number.** One register is not enough for the first sum, and the numbers
of its spill code are handed out again when two registers are allocated. -/
theorem numbers_clash : ∃ p, Program.ofAst twoSums = .ok p ∧
    (p.allocate 1).2.isOk = false ∧ ¬ (p.afterCalls [1]).FreshNumbers ∧
      ((p.afterCalls [1]).allocate 2).2.isOk = true ∧
        ¬ (methodIds (p.afterCalls [1, 2]).methods).Nodup := by
  obtain ⟨p, hp⟩ := @exists_ofAst_ok twoSums (by cbv)
  have hcalls : (Program.ofAst twoSums).toOption.map (fun p =>
      ((p.allocate 1).2.isOk, ((p.afterCalls [1]).allocate 2).2.isOk,
        (p.afterCalls [1]).nextId, (methodIds (p.afterCalls [1]).methods).contains 12,
        methodIds (p.afterCalls [1, 2]).methods)) =
      some (false, true, 12, true,
        [0, 12, 1, 14, 13, 15, 2, 3, 4, 5, 6, 12, 7, 8, 9, 13, 10, 11]) := by decide +kernel
  rw [hp] at hcalls
  simp only [Except.toOption, Option.map_some, Option.some.injEq, Prod.mk.injEq] at hcalls
  obtain ⟨hfails, hok, hnext, hmem, hids⟩ := hcalls
  refine ⟨p, hp, hfails, fun hfresh => ?_, hok, ?_⟩
  · have hlt := hfresh.id_lt 12 (List.contains_iff_mem.1 hmem)
    rw [hnext] at hlt
    exact Nat.lt_irrefl _ hlt
  · rw [hids]
    decide

end MiniJava.Ssa
