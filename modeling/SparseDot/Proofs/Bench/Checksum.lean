import SparseDot.Proofs.Bench.Schedule
import SparseDot.Proofs.Numeric.Multiples

set_option autoImplicit false

/-!
# The checksum does not depend on the schedule

All calls of a run have the same result. The sum of a task is a multiple of it, and so is the sum of any number of
tasks, in whatever order the pool adds them up and whatever zeros it starts from. As long as there are not too many
calls, none of these sums is rounded, and so the checksum is the product of the result and the number of calls. It
is not the negative zero either, since every task starts from the positive one.

## Main definitions

* `SparseDot.Bench.FiniteResult`, `SparseDot.Bench.exactCalls` — finite results of a kernel, and how many of them
  are added up exactly.
* `SparseDot.Bench.Reduction.tasks` — the tasks that a reduction adds up.

## Main results

* `SparseDot.Bench.finiteResult_of_runOnce` — what a kernel gives is such a result.
* `SparseDot.Bench.Task.isValueOf_sum` — the sum of a task.
* `SparseDot.Bench.Reduction.near_value`, `SparseDot.Bench.Reduction.not_isNegativeZero_value` — the value of a
  reduction.
* `SparseDot.Bench.Job.checksum_eq_of_schedules` — the checksum of a run.
-/

namespace SparseDot.Bench

open Binary

/-! ## Results of a kernel -/

/-- **A finite result of a kernel** in double precision: a single precision value, or an integer of 32 bits. -/
def FiniteResult : Kernel.Kind → Binary64 → Prop
  | .scalar, r | .simd, r => ∃ x : Binary32, x.isFinite ∧ r = convert x
  | .int8, r => ∃ n : Int32, r = ofInt n.toInt

/-- **How many results of a kernel** can be added up without rounding, whatever the results are. -/
def exactCalls : Kernel.Kind → ℕ
  | .scalar | .simd => 2 ^ 29
  | .int8 => 2 ^ 22

/-- Values that are not finite stay so in another format. -/
private lemma isFinite_of_isFinite_convert {x : Binary32} (h : (convert x : Binary64).isFinite) : x.isFinite := by
  cases x with
  | finite s r hr => rfl
  | infinity s => exact h
  | nan => exact h

/-- What a kernel gives is one of its results. -/
theorem finiteResult_of_runOnce {level : Kernel.LaneLevel} {kernel : Kernel.Kind} {inputs : Inputs} {r : Binary64}
    (h : runOnce level kernel inputs = .ok r) (hr : r.isFinite) : FiniteResult kernel r := by
  have hmap {α : Type} {f : α → Binary64} {product : Except Kernel.Fault α} (h : product.map f = .ok r) :
      ∃ value, r = f value := by
    cases product with
    | error fault => cases h
    | ok value => exact ⟨value, (Except.ok.inj h).symm⟩
  cases kernel with
  | int8 => exact (hmap h).imp fun n hn => hn
  | scalar | simd =>
    obtain ⟨x, rfl⟩ := hmap h
    exact ⟨x, isFinite_of_isFinite_convert hr, rfl⟩

/-- **The results of a kernel have that many multiples.** -/
theorem FiniteResult.hasMultiples {kernel : Kernel.Kind} {r : Binary64} (h : FiniteResult kernel r) :
    r.HasMultiples (exactCalls kernel) := by
  cases kernel with
  | scalar | simd =>
    obtain ⟨x, hx, rfl⟩ := h
    exact hasMultiples_convert hx
  | int8 =>
    obtain ⟨n, rfl⟩ := h
    exact hasMultiples_ofInt (abs_le.mpr ⟨n.le_toInt, n.toInt_lt.le⟩)

/-! ## The sum of a task -/

section Task

variable {r : Binary64} {limit : ℕ} (h : r.HasMultiples limit)
include h

/-- Going on with a sum of calls.

**Proof sketch.** Induction on the calls. The sum so far is a multiple of the result that is not the negative zero, and
with one more call it is the next multiple, which is a number of the format. -/
private lemma isValueOf_foldl_add {calls : List Call} (hcalls : ∀ call ∈ calls, call.value = r) {i : ℕ} {sum : Binary64}
    (hsum : sum.IsValueOf (i * r.toRat)) (hlimit : i + calls.length ≤ limit) :
    (calls.foldl (fun sum call => sum + call.value) sum).IsValueOf ((i + calls.length : ℕ) * r.toRat) := by
  induction calls generalizing i sum with
  | nil => exact hsum
  | cons call calls ih =>
    obtain ⟨hcall, hcalls⟩ := List.forall_mem_cons.mp hcalls
    have hone : r.Near ((1 : ℕ) * r.toRat) 0 := ⟨h.isFinite, by simp⟩
    rw [List.length_cons, Nat.add_comm calls.length, ← Nat.add_assoc] at hlimit ⊢
    rw [List.foldl_cons, hcall]
    -- the sum so far is not the negative zero, whatever the result is
    exact ih hcalls (h.isValueOf_add hsum.near hone (by omega) fun hneg => hsum.not_isNegativeZero hneg.1) hlimit

/-- **The sum of a task** is the multiple of the result by the number of its calls. -/
theorem Task.isValueOf_sum {task : Task} (hcalls : ∀ call ∈ task.calls, call.value = r)
    (hlimit : task.calls.length ≤ limit) : task.sum.IsValueOf (task.calls.length * r.toRat) := by
  have hzero : (zero false : Binary64).IsValueOf ((0 : ℕ) * r.toRat) := by
    rw [Nat.cast_zero, zero_mul]
    exact isValueOf_zero
  have hsum := isValueOf_foldl_add h hcalls hzero (by omega)
  rwa [Nat.zero_add] at hsum

end Task

/-! ## Reductions -/

namespace Reduction

/-- **The tasks that a reduction adds up**, from left to right. -/
def tasks : Reduction → List ℕ
  | .zero _ => []
  | .task index => [index]
  | .join left right => left.tasks ++ right.tasks

/-- Adding up one task after the other takes each of them once. -/
private lemma tasks_leftToRight (n : ℕ) : (leftToRight n).tasks = List.range n := by
  induction n with
  | zero => rfl
  | succ n ih => rw [leftToRight, tasks, ih, tasks, List.range_succ]

section Value

variable {r : Binary64} {limit calls : ℕ} (h : r.HasMultiples limit) {sums : Array Binary64} {t : Reduction}
  (hsums : ∀ i ∈ t.tasks, (sums.getD i (Binary.zero false)).IsValueOf (calls * r.toRat))
include h hsums

/-- **The value of a reduction** is the multiple of the result by the number of calls of its tasks.

**Proof sketch.** Induction on the reduction. A sum of two sides has the tasks of both, so that it is a multiple as
well, and there is room for it. -/
theorem near_value (hlimit : t.tasks.length * calls ≤ limit) :
    (t.value sums).Near ((t.tasks.length * calls : ℕ) * r.toRat) 0 := by
  induction t with
  | zero negative =>
    rw [tasks, List.length_nil, Nat.zero_mul, Nat.cast_zero, zero_mul]
    exact near_zero negative
  | task index =>
    rw [tasks, List.length_singleton, Nat.one_mul]
    exact (hsums index (List.mem_singleton_self index)).near
  | join left right ihl ihr =>
    rw [tasks, List.forall_mem_append] at hsums
    rw [tasks, List.length_append, Nat.add_mul] at hlimit ⊢
    exact h.near_add (ihl hsums.1 (by omega)) (ihr hsums.2 (by omega)) hlimit

/-- **It is not the negative zero** if there is any task.

**Proof sketch.** Induction on the reduction. A sum is the negative zero only if both sides are, and at least one side
has a task. -/
theorem not_isNegativeZero_value (hlimit : t.tasks.length * calls ≤ limit) (hne : t.tasks ≠ []) :
    ¬(t.value sums).exact.IsNegativeZero := by
  induction t with
  | zero negative => exact absurd rfl hne
  | task index => exact (hsums index (List.mem_singleton_self index)).not_isNegativeZero
  | join left right ihl ihr =>
    rw [tasks, List.forall_mem_append] at hsums
    rw [tasks, List.length_append, Nat.add_mul] at hlimit
    have hleft := near_value h hsums.1 (by omega)
    have hright := near_value h hsums.2 (by omega)
    refine (h.isValueOf_add hleft hright hlimit fun hneg => ?_).not_isNegativeZero
    -- one of the two sides has a task
    rw [tasks, Ne, List.append_eq_nil_iff, not_and_or] at hne
    rcases hne with hne | hne
    · exact ihl hsums.1 (by omega) hne hneg.1
    · exact ihr hsums.2 (by omega) hne hneg.2

end Value

end Reduction

/-! ## The checksum -/

section Checksum

variable {job : Job} {execution : Execution}

/-- The checksum is the value of the multiple of the result by the number of all calls.

**Proof sketch.** Every task is some position of the reduction, and has as many calls as there are iterations. So all
sums of tasks are the same multiple of the result, of which the reduction takes as many as there are threads. There is
at least one, so the checksum is not the negative zero. -/
private lemma Execution.isValueOf_checksum {r : Binary64} (hr : r.HasMultiples job.calls)
    (hcomplete : execution.Complete job) (hvalues : ∀ call ∈ execution.calls, call.value = r)
    (hreduction : execution.reduction.tasks.Perm (List.range execution.tasks.length)) :
    execution.checksum.IsValueOf (job.calls * r.toRat) := by
  have hthreads : 1 ≤ job.threads := le_max_right _ _
  have hlength : execution.reduction.tasks.length = job.threads := by
    rw [hreduction.length_eq, List.length_range, hcomplete.length_tasks]
  have hlimit : job.options.iterations ≤ job.calls := Nat.le_mul_of_pos_left _ hthreads
  have hsums : ∀ i ∈ execution.reduction.tasks,
      ((execution.tasks.map Task.sum).toArray.getD i (zero false)).IsValueOf (job.options.iterations * r.toRat) := by
    intro i hi
    have hlt : i < execution.tasks.length := List.mem_range.mp (hreduction.mem_iff.mp hi)
    have htask := List.getElem_mem hlt
    have hsum := Task.isValueOf_sum hr
      (fun call hcall => hvalues call (List.mem_flatMap.mpr ⟨_, htask, hcall⟩))
      ((hcomplete.length_calls _ htask).trans_le hlimit)
    rw [hcomplete.length_calls _ htask] at hsum
    simpa [hlt] using hsum
  have hcalls : execution.reduction.tasks.length * job.options.iterations = job.calls := by rw [hlength, Job.calls]
  have hnear := Reduction.near_value hr hsums hcalls.le
  rw [hcalls] at hnear
  refine ⟨hnear, Reduction.not_isNegativeZero_value hr hsums hcalls.le ?_⟩
  rw [← List.length_pos_iff, hlength]
  exact hthreads

/-- The last line of the log tells the checksum. -/
private lemma Job.getLast?_log_finish (job : Job) (timer : Timing.Timer) (execution : Execution)
    (ended : Timing.Instant) (colours : Bool) : (job.finish timer execution ended colours).log.getLast? =
      some ⟨.info, "checksum=" ++ Decimal.fixed 4 execution.checksum⟩ := by
  rw [finish]
  cases job.gather execution <;> exact List.getLast?_concat

end Checksum

namespace Job

/-- **The checksum does not depend on the schedule.** Let all calls of a run have the same result, which is a finite
one of the kernel, and let there be at most `2 ^ 29` calls, or `2 ^ 22` with the byte kernel. Then there is one
checksum, which is exactly the number of calls times the result: every execution has it, whatever worker does a task
and however the sums of the tasks are added up, with any number of zeros of either sign; and every execution tells
it in the last line of the log.

**Proof sketch.** Multiples of a finite result by so many calls are numbers of the format. The checksum of every
execution is the value of the same multiple, so that it is the same checksum. -/
theorem checksum_eq_of_schedules (job : Job) (hcalls : job.calls ≤ exactCalls job.options.kernel) :
    (∀ r, runOnce job.level job.options.kernel job.inputs = .ok r → r.isFinite → FiniteResult job.options.kernel r) ∧
    ∀ r, FiniteResult job.options.kernel r → ∃ checksum : Binary64,
      checksum.isFinite ∧ checksum.toRat = job.calls * r.toRat ∧
      ∀ execution : Execution, execution.Complete job → (∀ call ∈ execution.calls, call.value = r) →
        execution.reduction.tasks.Perm (List.range execution.tasks.length) →
        execution.checksum = checksum ∧ ∀ timer ended colours,
          (job.finish timer execution ended colours).log.getLast? =
            some ⟨.info, "checksum=" ++ Decimal.fixed 4 checksum⟩ := by
  refine ⟨fun r hrun hfinite => finiteResult_of_runOnce hrun hfinite, fun r hr => ?_⟩
  have hmultiples : r.HasMultiples job.calls :=
    ⟨hr.hasMultiples.isFinite, fun k hk => hr.hasMultiples.representable k (hk.trans hcalls)⟩
  obtain ⟨checksum, hchecksum⟩ := exists_isValueOf (hmultiples.representable job.calls le_rfl)
  refine ⟨checksum, hchecksum.near.isFinite, hchecksum.near.toRat_eq, ?_⟩
  intro execution hcomplete hvalues hreduction
  have heq := (execution.isValueOf_checksum hmultiples hcomplete hvalues hreduction).unique hchecksum
  refine ⟨heq, fun timer ended colours => ?_⟩
  rw [getLast?_log_finish, heq]

/-- Three tasks of two calls each, with the smallest subnormal number as their result. One execution adds up the tasks
from the first one on, the other one begins with the last task and with zeros of both signs. -/
theorem checksum_eq_of_schedules_least_number :
    let least : Binary32 := ofBits Format.single 1
    let inputs : Inputs := ⟨#[0], #[least], #[Binary.ofNat 1], #[0], #[1]⟩
    let job : Job := ⟨{ threads := 3, iterations := 2 }, inputs, false, .avx2⟩
    let call : Call := ⟨convert least, ⟨.zero⟩, ⟨.zero⟩⟩
    let tasks : List Task := [⟨0, [call, call]⟩, ⟨0, [call, call]⟩, ⟨0, [call, call]⟩]
    let reduction : Reduction :=
      .join (.join (.zero true) (.task 2)) (.join (.zero false) (.join (.task 0) (.task 1)))
    job.calls ≤ exactCalls job.options.kernel ∧ runOnce job.level job.options.kernel job.inputs = .ok call.value ∧
      (Execution.inOrder tasks).checksum = Execution.checksum ⟨1, tasks, reduction, [0]⟩ ∧
      (Execution.inOrder tasks).checksum.toRat = 6 * call.value.toRat := by
  intro least inputs job call tasks reduction
  have hcalls : job.calls ≤ exactCalls job.options.kernel := by decide
  have hrun : runOnce job.level job.options.kernel job.inputs = .ok call.value := by decide +kernel
  have hfinite : call.value.isFinite := by decide +kernel
  obtain ⟨hresult, hchecksum⟩ := job.checksum_eq_of_schedules hcalls
  obtain ⟨checksum, -, hexact, hall⟩ := hchecksum call.value (hresult call.value hrun hfinite)
  have hinOrder := (hall (.inOrder tasks) ⟨rfl, by simp [Execution.inOrder, tasks, job],
    by simp [Execution.inOrder, tasks], .refl _⟩ (by simp [Execution.calls, Execution.inOrder, tasks])
    (.of_eq (Reduction.tasks_leftToRight 3))).1
  have hlate := (hall ⟨1, tasks, reduction, [0]⟩ ⟨rfl, by simp [tasks, job], by simp [tasks], .refl _⟩
    (by simp [Execution.calls, tasks]) (by decide)).1
  refine ⟨hcalls, hrun, hinOrder.trans hlate.symm, ?_⟩
  rw [hinOrder, hexact]
  rfl

end Job

end SparseDot.Bench
