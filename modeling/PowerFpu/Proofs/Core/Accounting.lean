import Mathlib.Algebra.Group.Nat.Defs
import PowerFpu.Proofs.Core.TransferProtocol

/-! What the counters say about a run.

Each counter goes up by one at the instruction words that end in one way, and no counter
at anything else. Over a run from zero it is therefore the number of those words, as far as
its 64 bits tell. -/

set_option autoImplicit false

namespace PowerFpu

def Exception.isMemoryFault : Exception → Bool
  | .dataStorage _ | .alignment _ => true
  | .program _ => false

/-- Whether an operation takes part in the count of record forms, by its class. -/
def Operation.counted (op : Operation) : Bool :=
  match op.opClass with
  | .arithmetic | .conversion => true
  | .control => op ≠ .control .drainField
  | .compare | .memory => false

theorem Operation.counted_eq_hasRecordForm (op : Operation) : op.counted = op.hasRecordForm := by
  cases op with
  | control op => cases op <;> rfl
  | arithmetic op | conversion op | compare ordered | transfer op => rfl

structure Ending where
  request : Request
  result : Except Exception Unit

namespace Ending

def completed : Ending → Bool
  | ⟨.word _, .ok _⟩ => true
  | _ => false

def completedAs (opClass : OperationClass) : Ending → Bool
  | ⟨.word inst, .ok _⟩ => (Operation.decode inst).any fun op => op.opClass = opClass
  | _ => false

def recorded : Ending → Bool
  | ⟨.word inst, .ok _⟩ => inst.getLsbD 0 && (Operation.decode inst).any Operation.counted
  | _ => false

def failedWith (test : Exception → Bool) : Ending → Bool
  | ⟨.word _, .error exception⟩ => test exception
  | _ => false

/-- A word completes or fails, and there are four exceptions to fail with. -/
theorem balance (ending : Ending) :
    (if ending.request.isWord then 1 else 0) =
      (if ending.completed then 1 else 0) + (if ending.failedWith (· = .illegal) then 1 else 0) +
        (if ending.failedWith (· = .floatingPointEnabled) then 1 else 0) +
          if ending.failedWith (·.isMemoryFault) then 1 else 0 := by
  obtain ⟨inst | ⟨op, operands⟩, exception | done⟩ := ending
  · rcases exception with (_ | _) | address | address <;> rfl
  · rfl
  · rfl
  · rfl

theorem completed_of_completedAs (ending : Ending) (opClass : OperationClass)
    (counted : ending.completedAs opClass = true) : ending.completed = true := by
  obtain ⟨inst | ⟨op, operands⟩, exception | done⟩ := ending
  · cases counted
  · rfl
  · cases counted
  · cases counted

theorem completed_of_recorded (ending : Ending) (counted : ending.recorded = true) : ending.completed = true := by
  obtain ⟨inst | ⟨op, operands⟩, exception | done⟩ := ending
  · cases counted
  · rfl
  · cases counted
  · cases counted

theorem countP_isWord (endings : List Ending) :
    endings.countP (·.request.isWord) =
      endings.countP completed + endings.countP (failedWith (· = .illegal)) +
        endings.countP (failedWith (· = .floatingPointEnabled)) +
          endings.countP (failedWith (·.isMemoryFault)) := by
  induction endings with
  | nil => rfl
  | cons ending endings ih =>
    have one := ending.balance
    simp only [List.countP_cons, ih]
    omega

end Ending

namespace Statistics

theorem count_record (statistics : Statistics) (opClass other : OperationClass) :
    (statistics.record other).count opClass =
      if other = opClass then statistics.count opClass + 1 else statistics.count opClass := by
  cases opClass <;> cases other <;> rfl

section Completed
variable (statistics : Statistics) (op : Operation) (record : Bool)

theorem total_completed : (statistics.completed op record).total = statistics.total + 1 := by
  unfold completed
  rw [← statistics.total_record op.opClass]
  split <;> rfl

theorem count_completed (opClass : OperationClass) :
    (statistics.completed op record).count opClass =
      if op.opClass = opClass then statistics.count opClass + 1 else statistics.count opClass := by
  unfold completed
  rw [← statistics.count_record opClass op.opClass]
  split
  · cases opClass <;> rfl
  · rfl

theorem recordForms_completed :
    (statistics.completed op record).recordForms =
      if record && op.counted then statistics.recordForms + 1 else statistics.recordForms := by
  have kept : (statistics.record op.opClass).recordForms = statistics.recordForms := by
    cases op.opClass <;> rfl
  unfold completed
  rw [op.counted_eq_hasRecordForm, ← kept]
  split <;> rfl

theorem illegal_completed : (statistics.completed op record).illegal = statistics.illegal := by
  unfold completed
  cases op.opClass <;> split <;> rfl

theorem traps_completed : (statistics.completed op record).traps = statistics.traps := by
  unfold completed
  cases op.opClass <;> split <;> rfl

end Completed

end Statistics

namespace Machine

variable {σ : Type} (bus : Bus σ)

def endings : List Request → Machine σ → List Ending
  | [], _ => []
  | request :: requests, machine =>
    ⟨request, (machine.perform bus request).result⟩ :: endings requests (machine.perform bus request).machine

/-- A counter that goes up by one at the steps that end in a way, and at no others. -/
def Counts (counter : Statistics → Counter) (test : Ending → Bool) : Prop :=
  ∀ (machine : Machine σ) (request : Request),
    counter (machine.perform bus request).machine.core.statistics =
      if test ⟨request, (machine.perform bus request).result⟩ then counter machine.core.statistics + 1
      else counter machine.core.statistics

variable {bus} {counter : Statistics → Counter} {test : Ending → Bool}

/-- Over a run such a counter adds up the steps that end so. -/
theorem Counts.run (counts : Counts bus counter test) (requests : List Request) (machine : Machine σ) :
    counter (machine.performAll bus requests).core.statistics =
      counter machine.core.statistics + .ofNat 64 ((machine.endings bus requests).countP test) := by
  induction requests generalizing machine with
  | nil => exact (BitVec.add_zero _).symm
  | cons request requests ih =>
    have rest := ih (machine.perform bus request).machine
    rw [counts machine request] at rest
    rw [endings, List.countP_cons, BitVec.ofNat_add, BitVec.add_comm (.ofNat 64 _), ← BitVec.add_assoc]
    cases passes : test ⟨request, (machine.perform bus request).result⟩ with
    | true =>
      rw [passes] at rest
      exact rest
    | false =>
      rw [passes] at rest
      exact rest.trans (congrArg (· + _) (BitVec.add_zero _).symm)

theorem Counts.run_fresh (counts : Counts bus counter test) (requests : List Request) {machine : Machine σ}
    (fresh : machine.core.statistics = .zero) (zero : counter .zero = 0#64)
    (few : (machine.endings bus requests).countP test < 2 ^ 64) :
    (counter (machine.performAll bus requests).core.statistics).toNat =
      (machine.endings bus requests).countP test := by
  rw [counts.run requests machine, fresh, zero, BitVec.zero_add, BitVec.toNat_ofNat, Nat.mod_eq_of_lt few]

/-- A counter of words is told by how a word completes and how one fails; dispatch alone is
not counted. -/
theorem counts_of_account
    (dispatched : ∀ op operands result, test ⟨.decoded op operands, result⟩ = false)
    (completed : ∀ inst op statistics, Operation.decode inst = some op →
      counter (statistics.completed op (inst.getLsbD 0)) =
        if test ⟨.word inst, .ok ()⟩ then counter statistics + 1 else counter statistics)
    (failed : ∀ inst exception statistics,
      counter (statistics.failed exception) =
        if test ⟨.word inst, .error exception⟩ then counter statistics + 1 else counter statistics) :
    Counts bus counter test := by
  intro machine request
  cases request with
  | decoded op operands =>
    rw [dispatched, if_neg Bool.false_ne_true]
    exact congrArg counter (machine.dispatch_statistics bus op operands)
  | word inst =>
    cases decoded : Operation.decode inst with
    | none =>
      obtain ⟨result, same⟩ := machine.execute_undecoded bus decoded
      simp only [perform, result, same]
      exact failed inst .illegal machine.core.statistics
    | some op =>
      obtain ⟨result, same⟩ := machine.execute_decoded bus decoded
      have kept := machine.dispatch_statistics bus op (.decode inst)
      simp only [perform, result, same]
      change counter (account op _ _ (machine.dispatch bus op (.decode inst)).machine.core.statistics) = _
      rw [kept]
      cases (machine.dispatch bus op (.decode inst)).result with
      | ok done => exact completed inst op machine.core.statistics decoded
      | error exception => exact failed inst exception machine.core.statistics

theorem counts_total : Counts bus Statistics.total Ending.completed := by
  apply counts_of_account
  · intro op operands result
    rfl
  · intro inst op statistics decoded
    exact statistics.total_completed op _
  · intro inst exception statistics
    rcases exception with (_ | _) | _ | _ <;> rfl

theorem counts_count (opClass : OperationClass) :
    Counts bus (·.count opClass) (Ending.completedAs opClass) := by
  apply counts_of_account
  · intro op operands result
    rfl
  · intro inst op statistics decoded
    simp only [statistics.count_completed op, Ending.completedAs, decoded, Option.any_some, decide_eq_true_eq]
  · intro inst exception statistics
    rcases exception with (_ | _) | _ | _ <;> cases opClass <;> rfl

theorem counts_recordForms : Counts bus Statistics.recordForms Ending.recorded := by
  apply counts_of_account
  · intro op operands result
    rfl
  · intro inst op statistics decoded
    simp only [statistics.recordForms_completed op, Ending.recorded, decoded, Option.any_some]
  · intro inst exception statistics
    rcases exception with (_ | _) | _ | _ <;> rfl

theorem counts_illegal : Counts bus Statistics.illegal (Ending.failedWith (· = .illegal)) := by
  apply counts_of_account
  · intro op operands result
    rfl
  · intro inst op statistics decoded
    exact statistics.illegal_completed op _
  · intro inst exception statistics
    rcases exception with (_ | _) | _ | _ <;> rfl

theorem counts_traps : Counts bus Statistics.traps (Ending.failedWith (· = .floatingPointEnabled)) := by
  apply counts_of_account
  · intro op operands result
    rfl
  · intro inst op statistics decoded
    exact statistics.traps_completed op _
  · intro inst exception statistics
    rcases exception with (_ | _) | _ | _ <;> rfl

theorem countP_endings (requests : List Request) (machine : Machine σ) :
    requests.countP Request.isWord = (machine.endings bus requests).countP (·.request.isWord) := by
  induction requests generalizing machine with
  | nil => rfl
  | cons request requests ih =>
    rw [endings, List.countP_cons, List.countP_cons, ih (machine.perform bus request).machine]

end Machine

/-- The counters of a run of fewer than 2 ^ 64 words that starts at zero add up, whatever the
bus does. Each of them is the number of words that ended in one way; the words that none of
them counts are the memory faults; and dispatch changes none. -/
theorem accounting_conserved {σ : Type} (bus : Bus σ) (machine : Machine σ) (requests : List Request)
    (fresh : machine.core.statistics = .zero) (few : requests.countP Request.isWord < 2 ^ 64) :
    let endings := machine.endings bus requests
    let after := (machine.performAll bus requests).core.statistics
    let words := requests.countP Request.isWord
    after.total.toNat = endings.countP Ending.completed ∧
    (∀ opClass, (after.count opClass).toNat = endings.countP (Ending.completedAs opClass)) ∧
    after.illegal.toNat = endings.countP (Ending.failedWith (· = .illegal)) ∧
    after.traps.toNat = endings.countP (Ending.failedWith (· = .floatingPointEnabled)) ∧
    words = after.total.toNat + after.illegal.toNat + after.traps.toNat +
      endings.countP (Ending.failedWith (·.isMemoryFault)) ∧
    after.recordForms.toNat = endings.countP Ending.recorded ∧
    (∀ op operands,
      (machine.performAll bus (requests ++ [.decoded op operands])).core.statistics = after) ∧
    (after.total.toNat ≤ words ∧ (∀ opClass, (after.count opClass).toNat ≤ words) ∧ after.illegal.toNat ≤ words ∧
      after.traps.toNat ≤ words ∧ after.recordForms.toNat ≤ words) := by
  intro endings after words
  have balance : words = endings.countP Ending.completed + endings.countP (Ending.failedWith (· = .illegal)) +
      endings.countP (Ending.failedWith (· = .floatingPointEnabled)) +
        endings.countP (Ending.failedWith (·.isMemoryFault)) :=
    (machine.countP_endings requests).trans (Ending.countP_isWord endings)
  have total : after.total.toNat = endings.countP Ending.completed :=
    Machine.counts_total.run_fresh requests fresh rfl (show endings.countP _ < 2 ^ 64 by omega)
  have illegal : after.illegal.toNat = endings.countP (Ending.failedWith (· = .illegal)) :=
    Machine.counts_illegal.run_fresh requests fresh rfl (show endings.countP _ < 2 ^ 64 by omega)
  have traps : after.traps.toNat = endings.countP (Ending.failedWith (· = .floatingPointEnabled)) :=
    Machine.counts_traps.run_fresh requests fresh rfl (show endings.countP _ < 2 ^ 64 by omega)
  have classes (opClass : OperationClass) :
      endings.countP (Ending.completedAs opClass) ≤ endings.countP Ending.completed :=
    List.countP_mono_left fun ending _ => ending.completed_of_completedAs opClass
  have count (opClass : OperationClass) :
      (after.count opClass).toNat = endings.countP (Ending.completedAs opClass) := by
    have fewer := classes opClass
    exact (Machine.counts_count opClass).run_fresh requests fresh (by cases opClass <;> rfl)
      (show endings.countP _ < 2 ^ 64 by omega)
  have forms : endings.countP Ending.recorded ≤ endings.countP Ending.completed :=
    List.countP_mono_left fun ending _ => ending.completed_of_recorded
  have recordForms : after.recordForms.toNat = endings.countP Ending.recorded :=
    Machine.counts_recordForms.run_fresh requests fresh rfl (show endings.countP _ < 2 ^ 64 by omega)
  refine ⟨total, count, illegal, traps, ?_, recordForms, ?_, ?_, ?_, ?_, ?_, ?_⟩
  · rw [total, illegal, traps]
    exact balance
  · intro op operands
    rw [Machine.performAll_append]
    exact Machine.dispatch_statistics bus op operands _
  · omega
  · intro opClass
    have fewer := classes opClass
    rw [count]
    omega
  · omega
  · omega
  · omega

/-- A trap, a record form, two words whose lowest bit records nothing, a word that is no
instruction, a load from nowhere and one without an address; and a move that was decoded beforehand. -/
theorem accounting_conserved_of_mixed_run :
    let machine := Machine.resting 0x00000080 (.native .nearest none) (Bank.zero.set 1 0x7FF8000000000000)
    let requests : List Request :=
      [.word 0xFC40081C, .word 0xFC602091, .word 0xFC000001, .word 0xFC000081, .word 0x00000000, .word 0xC8A00001,
        .word 0xCCA00000, .decoded (.arithmetic (.move .keep)) (.decode 0)]
    let after := (machine.performAll Memory.bus requests).core.statistics
    machine.core.statistics = .zero ∧ requests.countP Request.isWord < 2 ^ 64 ∧
      after = ⟨1, 0, 1, 1, 0, 1, 1, 2⟩ ∧
      after.total.toNat + after.illegal.toNat + after.traps.toNat +
        (machine.endings Memory.bus requests).countP (Ending.failedWith (·.isMemoryFault)) = 7 := by
  intro machine requests after
  have few : requests.countP Request.isWord < 2 ^ 64 := by decide
  obtain ⟨-, -, -, -, balance, -⟩ := accounting_conserved Memory.bus machine requests rfl few
  exact ⟨rfl, few, by decide +kernel, balance.symm⟩

end PowerFpu
