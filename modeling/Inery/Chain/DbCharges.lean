import Inery.Chain.SecondaryIndices

/-!
# What database calls charge

Whatever the calls of the database interface do to tables, rows and caches, what is charged for
them changes by `update_db_usage` alone: the usage after a call is reached from the usage before it
by charges.
-/

namespace Inery.Chain

open Foundation Relation

variable {σ : Type} (bill : UpdateDbUsage σ)

def Charge (u u' : σ) : Prop := ∃ receiver payer delta, bill receiver payer delta u = .ok u'

/-- The usage that a computation leaves is reached by charges. -/
def Charges {α : Type} (usage : α → σ) (u : σ) (x : Result α) : Prop :=
  Ends (fun _ => True) (fun a => ReflTransGen (Charge bill) u (usage a)) x

namespace Charges

variable {bill} {α β : Type} {usage : α → σ} {usage' : β → σ} {u : σ} {x : Result α}
  {f : α → Result β}

theorem of_ok {a : α} (hx : x = .ok a) (ha : usage a = u) : Charges bill usage u x :=
  Ends.of_ok hx (ha ▸ .refl)

theorem of_error {e : ChainException} (hx : x = .error e) : Charges bill usage u x :=
  Ends.of_error hx trivial

theorem bind (h : Charges bill usage u x) (hf : ∀ a, Charges bill usage' (usage a) (f a)) :
    Charges bill usage' u (x >>= f) :=
  Ends.bind h fun a ha => (hf a).mono fun _ hb => ha.trans hb

theorem skip (hf : ∀ a, x = .ok a → Charges bill usage' u (f a)) :
    Charges bill usage' u (x >>= f) := by
  cases x with
  | error e => exact of_error rfl
  | ok a => exact hf a rfl

end Charges

namespace DbState

variable {bill} {α : Type} (d : DbState σ) (receiver : Name)

variable (bill) in
/-- The same for a computation that returns something with the state. -/
abbrev Bills (x : Result (α × DbState σ)) : Prop := Charges bill (fun r => r.2.usage) d.usage x

theorem charges_charge (payer : Name) (delta : ℤ) :
    Charges bill usage d.usage (d.charge bill receiver payer delta) := by
  rw [charge]
  cases hrun : bill receiver payer delta d.usage with
  | error e => exact .of_error rfl
  | ok u => exact Ends.of_ok rfl (.single ⟨receiver, payer, delta, hrun⟩)

theorem charges_chargeAll (charges : List (Name × ℤ)) :
    Charges bill usage d.usage (d.chargeAll bill receiver charges) := by
  rw [chargeAll]
  induction charges generalizing d with
  | nil => exact .of_ok rfl rfl
  | cons c rest ih =>
    rw [List.foldlM_cons]
    exact (d.charges_charge receiver c.1 c.2).bind fun d' => ih d'

theorem charges_findOrCreateTable (key : TableKey) (payer : Name) :
    d.Bills bill (d.findOrCreateTable bill receiver key payer) := by
  rw [findOrCreateTable]
  split
  · exact .of_ok rfl rfl
  · exact (d.charges_charge receiver payer _).bind fun d' => .of_ok rfl rfl

theorem charges_removeTable (key : TableKey) (tid : TableIdObject) :
    Charges bill usage d.usage (d.removeTable bill receiver key tid) :=
  (d.charges_charge receiver tid.payer _).bind fun _ => .of_ok rfl rfl

theorem charges_createRow (key : RowKey) (payer : Name) (value : Bytes) :
    d.Bills bill (d.createRow key payer value) := by
  rw [createRow]
  split
  · exact .of_error rfl
  · exact .of_ok rfl rfl

/-! ## Looking charges nothing -/

theorem charges_addAt (key : RowKey) : d.Bills bill (d.addAt key) := by
  rw [addAt]
  split
  · exact .of_ok rfl rfl
  · exact .of_error rfl

theorem charges_seek (key : TableKey) (position : ℕ → Option RowKey) :
    d.Bills bill (d.seek key position) := by
  rw [seek]
  split
  · exact .of_ok rfl rfl
  · next tab _ =>
    cases position tab.id with
    | none => exact .of_ok rfl rfl
    | some itr =>
      show Charges bill _ d.usage (ite _ _ _)
      split
      · exact .of_ok rfl rfl
      · exact charges_addAt (d.cacheTable tab).2 _

theorem usage_dbEndI64 (key : TableKey) : (d.dbEndI64 key).2.usage = d.usage := by
  rw [dbEndI64]
  split
  · rfl
  · rfl

theorem charges_stepBackTo (tId : ℕ) (position : Option RowKey) :
    d.Bills bill (d.stepBackTo tId position) := by
  cases position with
  | none => exact .of_ok rfl rfl
  | some itr =>
    rw [stepBackTo]
    split
    · exact .of_ok rfl rfl
    · exact (d.charges_addAt _).bind fun _ => .of_ok rfl rfl

theorem charges_stepForwardTo (tId : ℕ) (position : Option RowKey) :
    d.Bills bill (d.stepForwardTo tId position) := by
  cases position with
  | none => exact .skip fun _ _ => .of_ok rfl rfl
  | some itr =>
    rw [stepForwardTo]
    split
    · exact .skip fun _ _ => .of_ok rfl rfl
    · exact (d.charges_addAt _).bind fun _ => .of_ok rfl rfl

theorem charges_dbNextI64 (iterator : ℤ) : d.Bills bill (d.dbNextI64 iterator) := by
  rw [dbNextI64]
  split
  · exact .of_ok rfl rfl
  · refine .skip fun found _ => ?_
    exact d.charges_stepForwardTo (ofLex found.1.key).1
      (d.tables.keyValues.upperBound found.1.key)

theorem charges_dbPreviousI64 (iterator : ℤ) : d.Bills bill (d.dbPreviousI64 iterator) := by
  rw [dbPreviousI64]
  split
  · refine .skip fun tab _ => ?_
    split
    · exact .of_error rfl
    · exact .skip fun tid _ => d.charges_stepBackTo _ _
  · exact .skip fun found _ => d.charges_stepBackTo _ _

variable (i : SecondaryIndex) (iterator : ℤ)

theorem charges_nextSecondary : d.Bills bill (d.nextSecondary i iterator) := by
  rw [nextSecondary]
  split
  · exact .of_ok rfl rfl
  · exact .skip fun _ _ => d.charges_stepForwardTo _ _

theorem charges_previousSecondary : d.Bills bill (d.previousSecondary i iterator) := by
  rw [previousSecondary]
  split
  · refine .skip fun tab _ => ?_
    split
    · exact .of_error rfl
    · exact .skip fun _ _ => d.charges_stepBackTo _ _
  · exact .skip fun _ _ => d.charges_stepBackTo _ _

/-! ## The calls -/

theorem charges_dbStoreI64 (scope table payer : Name) (id : ℕ) (buffer : Bytes) :
    d.Bills bill (d.dbStoreI64 bill receiver scope table payer id buffer) := by
  refine (d.charges_findOrCreateTable receiver _ payer).bind fun r => ?_
  refine .skip fun _ _ => ?_
  refine (r.2.charges_createRow _ payer buffer).bind fun row => ?_
  refine (charges_charge (row.2.setCount _ r.1 _) receiver payer _).bind fun d' => ?_
  exact .of_ok rfl rfl

theorem charges_store (scope table payer : Name) (id : ℕ) (secondary : Bytes) :
    d.Bills bill (d.store bill i receiver scope table payer id secondary) := by
  refine .skip fun _ _ => ?_
  refine (d.charges_findOrCreateTable receiver _ payer).bind fun r => ?_
  refine (r.2.charges_createRow _ payer secondary).bind fun row => ?_
  refine (charges_charge (row.2.setCount _ r.1 _) receiver payer _).bind fun d' => ?_
  exact .of_ok rfl rfl

theorem charges_dbUpdateI64 (payer : Name) (buffer : Bytes) : Charges bill usage d.usage
      (d.dbUpdateI64 bill receiver iterator payer buffer) := by
  refine .skip fun _ _ => .skip fun _ _ => .skip fun _ _ => .skip fun _ _ => ?_
  exact (d.charges_chargeAll receiver _).bind fun _ => .of_ok rfl rfl

theorem charges_update (payer : Name) (secondary : Bytes) : Charges bill usage d.usage
      (d.update bill i receiver iterator payer secondary) := by
  refine .skip fun _ _ => .skip fun _ _ => .skip fun _ _ => .skip fun _ _ => ?_
  exact (d.charges_chargeAll receiver _).bind fun _ => .of_ok rfl rfl

theorem charges_removeRow (key : TableKey) (p : RowPointer) (tid : TableIdObject) :
    Charges bill usage d.usage
      (d.removeRow bill receiver key p tid iterator) := by
  rw [removeRow]
  dsimp only
  split
  · refine (charges_removeTable ((d.setCount _ _ _).eraseRow _) receiver _ _).bind fun _ => ?_
    exact .skip fun _ _ => .of_ok rfl rfl
  · exact .skip fun _ h => .skip fun _ _ => .of_ok rfl (by cases h; rfl)

theorem charges_dbRemoveI64 : Charges bill usage d.usage
      (d.dbRemoveI64 bill receiver iterator) := by
  refine .skip fun _ _ => .skip fun _ _ => .skip fun _ _ => .skip fun _ _ => ?_
  exact (d.charges_charge receiver _ _).bind fun d' => d'.charges_removeRow receiver _ _ _ _

theorem charges_remove : Charges bill usage d.usage (d.remove bill i receiver iterator) := by
  refine .skip fun _ _ => ?_
  refine (d.charges_charge receiver _ _).bind fun d' => ?_
  exact .skip fun _ _ => .skip fun _ _ => .skip fun _ _ => d'.charges_removeRow receiver _ _ _ _

theorem charges_call (c : DbCall) : d.Bills bill (d.call bill c) := by
  cases c with
  | store receiver scope table payer id buffer =>
    exact (d.charges_dbStoreI64 receiver scope table payer id buffer).bind
      fun _ => .of_ok rfl rfl
  | update receiver iterator payer buffer =>
    exact (d.charges_dbUpdateI64 receiver iterator payer buffer).bind
      fun _ => .of_ok rfl rfl
  | remove receiver iterator =>
    exact (d.charges_dbRemoveI64 receiver iterator).bind fun _ => .of_ok rfl rfl
  | get iterator size => exact .skip fun _ _ => .of_ok rfl rfl
  | next iterator =>
    exact (d.charges_dbNextI64 iterator).bind fun _ => .of_ok rfl rfl
  | previous iterator =>
    exact (d.charges_dbPreviousI64 iterator).bind fun _ => .of_ok rfl rfl
  | find key id | lowerbound key id | upperbound key id =>
    exact (d.charges_seek key _).bind fun _ => .of_ok rfl rfl
  | «end» key => exact .of_ok rfl (d.usage_dbEndI64 key)

theorem charges_reportKeys {x : Result (ℤ × DbState σ)} {u : σ}
    (h : Charges bill (fun r => r.2.usage) u x) :
    Charges bill (fun r => r.2.usage) u (reportKeys x) :=
  h.bind fun _ => .of_ok rfl rfl

theorem charges_callIndex (c : IndexCall) : d.Bills bill (d.callIndex bill i c) := by
  cases c with
  | store receiver scope table payer id secondary =>
    refine .skip fun _ _ => ?_
    exact (d.charges_store receiver i scope table payer id secondary).bind
      fun _ => .of_ok rfl rfl
  | update receiver iterator payer secondary =>
    refine .skip fun _ _ => ?_
    exact (d.charges_update receiver i iterator payer secondary).bind
      fun _ => .of_ok rfl rfl
  | remove receiver iterator =>
    exact (d.charges_remove receiver i iterator).bind fun _ => .of_ok rfl rfl
  | findSecondary key secondary | lowerboundSecondary key secondary
  | upperboundSecondary key secondary =>
    exact .skip fun _ _ => charges_reportKeys (d.charges_seek key _)
  | endSecondary key => exact .of_ok rfl (d.usage_dbEndI64 key)
  | nextSecondary iterator =>
    exact (d.charges_nextSecondary i iterator).bind fun _ => .of_ok rfl rfl
  | previousSecondary iterator =>
    exact (d.charges_previousSecondary i iterator).bind fun _ => .of_ok rfl rfl
  | findPrimary key primary | lowerboundPrimary key primary | upperboundPrimary key primary =>
    simp only [callIndex, findPrimary, lowerboundPrimary, upperboundPrimary]
    exact charges_reportKeys (d.charges_seek key _)
  | nextPrimary iterator =>
    exact (d.charges_dbNextI64 iterator).bind fun _ => .of_ok rfl rfl
  | previousPrimary iterator =>
    exact (d.charges_dbPreviousI64 iterator).bind fun _ => .of_ok rfl rfl
  | get iterator => exact .skip fun _ _ => .of_ok rfl rfl

end DbState

/-- **Every call changes what is charged by charges alone.** -/
theorem IndexedState.charges_call (s : IndexedState σ) (c : ContractCall) :
    Charges bill (fun r => r.2.usage) s.usage (s.call bill c) := by
  cases c with
  | primary call =>
    exact ((s.view .keyValue).charges_call call).bind fun _ => .of_ok rfl rfl
  | secondary i call =>
    exact ((s.view (.secondary i)).charges_callIndex i call).bind
      fun _ => .of_ok rfl rfl

end Inery.Chain
