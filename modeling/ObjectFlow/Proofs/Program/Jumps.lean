/-
  File:      ObjectFlow/Proofs/Program/Jumps.lean
  Subject:   IN EVERY PROGRAM THE READER ACCEPTS, JUMPS STAY INSIDE THEIR BODY.

  Bodies enter a program in one place only, when a finished draft is given to its method; all
  else that is read leaves the bodies as they are.

  * `Program.JumpsInside`: every jump target is the index of a statement of the same body;
  * `Reader.Keeps`: what a reader does keeps the property, whatever it reads;
  * `Draft.finish_inside`: the jumps of a finished draft go to its own statements;
  * `jumpsInside_of_ofSource`: the property holds of every accepted program.
-/
import Mathlib
import ObjectFlow.Program.Reader
import ObjectFlow.Proofs.Token.Scanning

namespace ObjectFlow

open Std.Do

set_option mvcgen.warning false

/-! ## 1. Bodies -/

/-- The jumps of a method go to statements of the method. -/
def MethodDecl.JumpsInside (d : MethodDecl) : Prop :=
  ∀ i ∈ d.body, ∀ t ∈ i.stmt.targets, t < d.body.size

namespace Program

/-- The jumps of every method go to statements of the method. -/
def JumpsInside (p : Program) : Prop := ∀ d ∈ p.methods, d.JumpsInside

variable {p : Program}

/-- The property, said of the statements of a method. -/
theorem JumpsInside.target_lt (h : p.JumpsInside) {m : MethodId} {stmt : Stmt}
    (hstmt : stmt ∈ (p.methodAt m).stmts) {t : Nat} (ht : t ∈ stmt.targets) :
    t < (p.methodAt m).stmts.length := by
  obtain ⟨i, hi, rfl⟩ := List.mem_map.mp hstmt
  have hlength : (p.methodAt m).stmts.length = (p.methodAt m).body.size := by
    simp [MethodDecl.stmts]
  rw [hlength]
  by_cases hm : m < p.methods.size
  · have hat : p.methodAt m = p.methods[m] := by simp [methodAt, hm]
    rw [hat] at hi ⊢
    exact h _ (Array.getElem_mem hm) i (Array.mem_toList_iff.mp hi) t ht
  · -- past the end of the table stands a method without a body
    have hat : p.methodAt m = default := by simp [methodAt, hm]
    rw [hat] at hi
    exact absurd hi List.not_mem_nil

theorem JumpsInside.internClass (h : p.JumpsInside) (name : String) :
    (p.internClass name).2.JumpsInside := by
  unfold Program.internClass
  split <;> exact h

theorem JumpsInside.internSubsig (h : p.JumpsInside) (text : String) :
    (p.internSubsig text).2.JumpsInside := by
  unfold Program.internSubsig
  split <;> exact h

theorem JumpsInside.modifyMethod (h : p.JumpsInside) (m : MethodId) {f : MethodDecl → MethodDecl}
    (hf : ∀ d, d.JumpsInside → (f d).JumpsInside) : (p.modifyMethod m f).JumpsInside := by
  intro d hd
  obtain ⟨i, hi, rfl⟩ := Array.mem_iff_getElem.mp hd
  simp only [Program.modifyMethod, Array.size_modify, Array.getElem_modify] at hi ⊢
  split
  · exact hf _ (h _ (Array.getElem_mem hi))
  · exact h _ (Array.getElem_mem hi)

theorem JumpsInside.addVar (h : p.JumpsInside) (m : MethodId) (name : String) (ty : Ty) :
    (p.addVar m name ty).2.JumpsInside :=
  JumpsInside.modifyMethod (p := { p with vars := _ }) h m fun _ hd => hd

theorem JumpsInside.addThis (h : p.JumpsInside) (m : MethodId) (owner : ClassId) :
    (p.addThis m owner).JumpsInside :=
  (h.addVar m "this" (.object owner)).modifyMethod m fun _ hd => hd

theorem JumpsInside.addParams (h : p.JumpsInside) (m : MethodId) (params : List (String × Ty)) :
    (params.foldl (fun p (name, ty) => p.addParam m name ty) p).JumpsInside := by
  induction params generalizing p with
  | nil => exact h
  | cons param params ih =>
    exact ih ((h.addVar m param.1 param.2).modifyMethod m fun _ hd => hd)

theorem JumpsInside.addMethod (h : p.JumpsInside) {d : MethodDecl} (hd : d.JumpsInside) :
    (p.addMethod d).2.JumpsInside := by
  intro e he
  rcases Array.mem_push.mp he with he | rfl
  · exact h e he
  · exact hd

end Program

/-- A method that has just been declared has no body yet. -/
theorem MethodDecl.jumpsInside_of_body_eq {d : MethodDecl} (h : d.body = #[]) :
    d.JumpsInside := by
  intro i hi
  rw [h] at hi
  exact absurd hi (Array.not_mem_empty i)

/-! ## 2. Drafts -/

namespace Reader

/-- Labels stand before a statement of the draft or at its end. -/
def Draft.LabelsInside (d : Draft) : Prop := ∀ l ∈ d.labels, l.2 ≤ d.stmts.size

theorem Draft.LabelsInside.addLabel {d : Draft} (h : d.LabelsInside) (label : LineToken) :
    LabelsInside { d with labels := d.labels ++ [(label, d.stmts.size)] } := by
  intro l hl
  rcases List.mem_append.mp hl with hl | hl
  · exact h l hl
  · cases List.mem_singleton.mp hl
    exact Nat.le_refl d.stmts.size

theorem Draft.LabelsInside.addStmt {d : Draft} (h : d.LabelsInside)
    (stmt : Nat × StmtOf LineToken) : LabelsInside { d with stmts := d.stmts.push stmt } := by
  intro l hl
  rw [Array.size_push]
  exact Nat.le_succ_of_le (h l hl)

theorem bind_eq_ok {ε α β : Type} {x : Except ε α} {f : α → Except ε β} {b : β}
    (h : (x >>= f) = .ok b) : ∃ a, x = .ok a ∧ f a = .ok b := by
  cases x with
  | error e => cases h
  | ok a => exact ⟨a, rfl, h⟩

/-- The targets of the resolved cases of a switch are resolved labels. -/
theorem mem_resolveCases {ε τ τ' : Type} {f : τ → Except ε τ'} {cases : List (Int32 × τ)}
    {cases' : List (Int32 × τ')} (h : StmtOf.resolveCases f cases = .ok cases') {t : τ'}
    (ht : t ∈ cases'.map (·.2)) : ∃ label, f label = .ok t := by
  induction cases generalizing cases' with
  | nil =>
    cases h
    cases ht
  | cons c cases ih =>
    obtain ⟨target, htarget, h⟩ := bind_eq_ok h
    obtain ⟨rest, hrest, h⟩ := bind_eq_ok h
    cases h
    rcases List.mem_cons.mp ht with rfl | ht
    · exact ⟨c.2, htarget⟩
    · exact ih hrest ht

/-- The targets of a resolved statement are resolved labels. -/
theorem mem_targets_resolve {ε τ τ' : Type} {f : τ → Except ε τ'} {stmt : StmtOf τ}
    {stmt' : StmtOf τ'} (h : stmt.resolve f = .ok stmt') {t : τ'} (ht : t ∈ stmt'.targets) :
    ∃ label, f label = .ok t := by
  cases stmt with
  | branch left op right target =>
    obtain ⟨i, hi, h⟩ := bind_eq_ok h
    cases h
    exact ⟨target, List.mem_singleton.mp ht ▸ hi⟩
  | jump target =>
    obtain ⟨i, hi, h⟩ := bind_eq_ok h
    cases h
    exact ⟨target, List.mem_singleton.mp ht ▸ hi⟩
  | switch on cases otherwise =>
    obtain ⟨cases', hcases, h⟩ := bind_eq_ok h
    obtain ⟨i, hi, h⟩ := bind_eq_ok h
    cases h
    rcases List.mem_append.mp ht with ht | ht
    · exact mem_resolveCases hcases ht
    · exact ⟨otherwise, List.mem_singleton.mp ht ▸ hi⟩
  | _ =>
    cases h
    cases ht

/-- Resolving the statements of a draft keeps their number, and their jumps go to labels. -/
theorem Draft.of_resolveStmts {d : Draft} {stmts : List (Nat × StmtOf LineToken)}
    {instrs : List Instr} (h : d.resolveStmts stmts = .ok instrs) :
    instrs.length = stmts.length ∧
      ∀ i ∈ instrs, ∀ t ∈ i.stmt.targets, ∃ label, d.resolveLabel label = .ok t := by
  induction stmts generalizing instrs with
  | nil =>
    cases h
    exact ⟨rfl, fun i hi => absurd hi List.not_mem_nil⟩
  | cons first stmts ih =>
    obtain ⟨stmt, hstmt, h⟩ := bind_eq_ok h
    obtain ⟨rest, hrest, h⟩ := bind_eq_ok h
    cases h
    obtain ⟨hlength, htargets⟩ := ih hrest
    refine ⟨congrArg Nat.succ hlength, fun i hi t ht => ?_⟩
    rcases List.mem_cons.mp hi with rfl | hi
    · exact mem_targets_resolve hstmt ht
    · exact htargets i hi t ht

/-- A draft can be finished if no label stands at its end and every jump goes to a label. -/
theorem Draft.finish_eq_ok {d : Draft} {s t : ReaderState} {instrs : List Instr} :
    d.finish s = .ok (instrs, t) ↔
      (d.labels.find? fun l => l.2 = d.stmts.size) = none ∧
        d.resolveStmts d.stmts.toList = .ok instrs ∧ t = s := by
  unfold Draft.finish
  cases hend : d.labels.find? fun l => l.2 = d.stmts.size with
  | some l =>
    constructor
    · intro h
      cases h
    · nofun
  | none =>
    cases hresolve : d.resolveStmts d.stmts.toList with
    | error label =>
      constructor
      · intro h
        cases h
      · nofun
    | ok found =>
      constructor
      · intro h
        cases h
        exact ⟨rfl, rfl, rfl⟩
      · rintro ⟨-, h, rfl⟩
        cases h
        rfl

/-- **The jumps of a finished draft go to its own statements**: no label stands at its end. -/
theorem Draft.finish_inside {d : Draft} (hd : d.LabelsInside) {s t : ReaderState}
    {instrs : List Instr} (h : d.finish s = .ok (instrs, t)) :
    ∀ i ∈ instrs, ∀ t ∈ i.stmt.targets, t < instrs.length := by
  obtain ⟨hnone, hresolve, -⟩ := Draft.finish_eq_ok.mp h
  obtain ⟨hlength, htargets⟩ := Draft.of_resolveStmts hresolve
  intro i hi t ht
  obtain ⟨label, hlabel⟩ := htargets i hi t ht
  unfold Draft.resolveLabel at hlabel
  split at hlabel
  · rename_i j hj
    cases hlabel
    obtain ⟨l, hl, rfl⟩ := Option.map_eq_some_iff.mp hj
    have hmem := List.mem_of_find?_eq_some hl
    have hne : l.2 ≠ d.stmts.size := by simpa using List.find?_eq_none.mp hnone l hmem
    rw [hlength, Array.length_toList]
    exact Nat.lt_of_le_of_ne (hd l hmem) hne
  · cases hlabel

/-! ## 3. Readers -/

variable {α β : Type}

/-- Whatever is read, the jumps of the program read so far stay inside their bodies. -/
abbrev Keeps (r : Reader α) : Prop :=
  ⦃fun s => ⌜s.program.JumpsInside⌝⦄ r ⦃⇓? _ s => ⌜s.program.JumpsInside⌝⦄

@[spec] theorem discard_spec {r : Reader α}
    {Q : PostCond Unit (.arg ReaderState (.except Diagnostics .pure))} :
    ⦃wp⟦r⟧ (fun _ => Q.1 (), Q.2)⦄ discard r ⦃Q⦄ := by
  have hdiscard : discard r = (do let _ ← r; pure ()) := rfl
  rw [hdiscard]
  mvcgen

theorem keeps_pure (a : α) : Keeps (pure a : Reader α) := by mvcgen

theorem Keeps.bind {r : Reader α} {f : α → Reader β} (hr : Keeps r) (hf : ∀ a, Keeps (f a)) :
    Keeps (r >>= f) := by
  mvcgen [hr, hf]

@[spec] theorem keeps_fail (found : LineToken) (cause : ReadCause) :
    Keeps (fail found cause : Reader α) := fun _ _ => trivial

theorem keeps_update {f : Program → α × Program}
    (h : ∀ p, p.JumpsInside → (f p).2.JumpsInside) : Keeps (update f) := by
  mvcgen [update]
  exact h _ ‹_›

/-! ## 4. Tokens and types -/

@[spec] theorem keeps_peek : Keeps peek := by mvcgen [peek]

@[spec] theorem keeps_advance : Keeps advance := by mvcgen [advance]

@[spec] theorem keeps_check (t : Token) : Keeps (check t) := by mvcgen [check]

@[spec] theorem keeps_checkSecond (t : Token) : Keeps (checkSecond t) := by mvcgen [checkSecond]

@[spec] theorem keeps_atEnd : Keeps atEnd := by mvcgen [atEnd]

@[spec] theorem keeps_accept (t : Token) : Keeps (accept t) := by mvcgen [accept]

@[spec] theorem keeps_expectOr (t : Token) (cause : ReadCause) : Keeps (expectOr t cause) := by
  mvcgen [expectOr]

@[spec] theorem keeps_expect (t : Token) : Keeps (expect t) := by mvcgen [expect]

@[spec] theorem keeps_identifier : Keeps identifier := by mvcgen [identifier]

@[spec] theorem keeps_remaining : Keeps remaining := by mvcgen [remaining]

@[spec] theorem keeps_program : Keeps program := by mvcgen [program]

theorem keeps_commaList {item : Reader α} (h : Keeps item) (bound : Nat) :
    Keeps (commaList item bound) := by
  induction bound with
  | zero => mvcgen [commaList]
  | succ bound ih => mvcgen [commaList, h, ih]

theorem keeps_commas {item : Reader α} (h : Keeps item) : Keeps (commas item) := by
  have hlist := fun bound => keeps_commaList h bound
  mvcgen [commas, hlist]

@[spec] theorem keeps_internClass (name : String) : Keeps (internClass name) :=
  keeps_update fun _ hp => hp.internClass name

@[spec] theorem keeps_internSubsig (text : String) : Keeps (update (·.internSubsig text)) :=
  keeps_update fun _ hp => hp.internSubsig text

@[spec] theorem keeps_readBrackets (ty : Ty) : Keeps (readBrackets ty) := by mvcgen [readBrackets]

@[spec] theorem keeps_readType : Keeps readType := by mvcgen [readType]

/-! ## 5. Declarations -/

@[spec] theorem keeps_addField (field : FieldDecl) : Keeps (modifyProgram (·.addField field)) :=
  keeps_update fun _ hp => hp

@[spec] theorem keeps_readField (owner : ClassId) (isStatic : Bool) :
    Keeps (readField owner isStatic) := by
  mvcgen [readField]

@[spec] theorem keeps_readParam : Keeps readParam := by mvcgen [readParam]

@[spec] theorem keeps_readParams : Keeps readParams := by
  have hparams := keeps_commas keeps_readParam
  mvcgen [readParams, hparams]

@[spec] theorem keeps_skipBody : Keeps skipBody := by mvcgen [skipBody]

theorem keeps_addMethod {d : MethodDecl} (hd : d.body = #[]) : Keeps (update (·.addMethod d)) :=
  keeps_update fun _ hp => hp.addMethod (MethodDecl.jumpsInside_of_body_eq hd)

@[spec] theorem keeps_addThis (m : MethodId) (owner : ClassId) :
    Keeps (modifyProgram (·.addThis m owner)) :=
  keeps_update fun _ hp => hp.addThis m owner

@[spec] theorem keeps_addParams (m : MethodId) (params : List (String × Ty)) :
    Keeps (modifyProgram fun p => params.foldl (fun p (name, ty) => p.addParam m name ty) p) :=
  keeps_update fun _ hp => hp.addParams m params

@[spec] theorem keeps_enterMethod {d : MethodDecl} (hd : d.body = #[])
    (params : List (String × Ty)) : Keeps (enterMethod d params) := by
  have hadd := keeps_addMethod hd
  mvcgen [enterMethod, hadd]

@[spec] theorem keeps_readHeader (owner : ClassId) (isStatic isAbstract : Bool)
    (start : LineToken) : Keeps (readHeader owner isStatic isAbstract start) := by
  mvcgen [readHeader]

@[spec] theorem keeps_readRest (header : MethodId × Bool) : Keeps (readRest header) := by
  mvcgen [readRest]

@[spec] theorem keeps_readMemberHead (owner : ClassId) : Keeps (readMemberHead owner) := by
  mvcgen [readMemberHead]

@[spec] theorem keeps_readMember (owner : ClassId) : Keeps (readMember owner) := by
  mvcgen [readMember, readMemberRest]

@[spec] theorem keeps_readMembers (owner : ClassId) (bound : Nat) :
    Keeps (readMembers owner bound) := by
  induction bound with
  | zero => mvcgen [readMembers]
  | succ bound ih => mvcgen [readMembers, ih]

@[spec] theorem keeps_readClassName : Keeps readClassName := by mvcgen [readClassName]

@[spec] theorem keeps_readSupertypes (isInterface : Bool) : Keeps (readSupertypes isInterface) := by
  have hnames := keeps_commas keeps_readClassName
  mvcgen [readSupertypes, hnames]

@[spec] theorem keeps_readNamedClass (isAbstract isInterface : Bool) :
    Keeps (readNamedClass isAbstract isInterface) := by
  mvcgen [readNamedClass]

@[spec] theorem keeps_readClassHead : Keeps readClassHead := by mvcgen [readClassHead]

@[spec] theorem keeps_readClassRest (owner : ClassId) : Keeps (readClassRest owner) := by
  mvcgen [readClassRest]

@[spec] theorem keeps_readClass : Keeps readClass := by mvcgen [readClass]

@[spec] theorem keeps_readClasses (bound : Nat) : Keeps (readClasses bound) := by
  induction bound with
  | zero => mvcgen [readClasses]
  | succ bound ih => mvcgen [readClasses, ih]

/-! ## 6. Statements -/

@[spec] theorem keeps_lookupVar (m : MethodId) (found : LineToken) (name : String) :
    Keeps (lookupVar m found name) := by
  mvcgen [lookupVar]

@[spec] theorem keeps_readVar (m : MethodId) : Keeps (readVar m) := by mvcgen [readVar]

@[spec] theorem keeps_readLabel : Keeps readLabel := by mvcgen [readLabel]

@[spec] theorem keeps_fieldBase (m : MethodId) (found : LineToken) (name : String) :
    Keeps (fieldBase m found name) := by
  mvcgen [fieldBase]

@[spec] theorem keeps_accessedField (found : LineToken) (name : String) (base : Option VarId)
    (c : ClassId) : Keeps (accessedField found name base c) := by
  mvcgen [accessedField]

@[spec] theorem keeps_readFieldAccess (m : MethodId) (found : LineToken) (name : String) :
    Keeps (readFieldAccess m found name) := by
  mvcgen [readFieldAccess]

@[spec] theorem keeps_readMethodRef : Keeps readMethodRef := by
  refine keeps_advance.bind fun found => ?_
  split
  · split
    · exact keeps_fail found _
    · dsimp only
      split
      · exact keeps_fail found _
      · exact (keeps_internClass _).bind fun c => (keeps_internSubsig _).bind fun id => keeps_pure _
  · exact keeps_fail found _

@[spec] theorem keeps_readArguments (m : MethodId) (arity : Nat) : Keeps (readArguments m arity) := by
  have hargs := keeps_commas (keeps_readVar m)
  mvcgen [readArguments, hargs]

@[spec] theorem keeps_readTarget (m : MethodId) (kind : CallKind) (base result : Option VarId) :
    Keeps (readTarget m kind base result) := by
  mvcgen [readTarget]

@[spec] theorem keeps_readInvoke (m : MethodId) (kind : CallKind) (result : Option VarId) :
    Keeps (readInvoke m kind result) := by
  mvcgen [readInvoke]

@[spec] theorem keeps_readNamedSource (m : MethodId) (lhs : VarId) :
    Keeps (readNamedSource m lhs) := by
  mvcgen [readNamedSource]

@[spec] theorem keeps_readSource (m : MethodId) (lhs : VarId) : Keeps (readSource m lhs) := by
  refine keeps_peek.bind fun found => ?_
  rcases found with ⟨token, line⟩
  cases token with
  | keyword word =>
    cases word with
    | newObject => mvcgen
    | invoke kind => mvcgen
    | _ => exact keeps_fail _ _
  | integer value => mvcgen
  | mark mark =>
    cases mark with
    | leftParen => mvcgen
    | _ => exact keeps_fail _ _
  | ident name => exact keeps_readNamedSource m lhs
  | _ => exact keeps_fail _ _

@[spec] theorem keeps_readAssignment (m : MethodId) : Keeps (readAssignment m) := by
  mvcgen [readAssignment]

@[spec] theorem keeps_readCases (bound : Nat) : Keeps (readCases bound) := by
  induction bound with
  | zero => mvcgen [readCases]
  | succ bound ih => mvcgen [readCases, ih]

@[spec] theorem keeps_readSwitch (m : MethodId) : Keeps (readSwitch m) := by mvcgen [readSwitch]

@[spec] theorem keeps_readBranch (m : MethodId) : Keeps (readBranch m) := by mvcgen [readBranch]

@[spec] theorem keeps_readReturn (m : MethodId) (start : LineToken) :
    Keeps (readReturn m start) := by
  mvcgen [readReturn]

@[spec] theorem keeps_readStmt (m : MethodId) : Keeps (readStmt m) := by mvcgen [readStmt]

/-! ## 7. Bodies and programs -/

@[spec] theorem keeps_addVar (m : MethodId) (name : String) (ty : Ty) :
    Keeps (update (·.addVar m name ty)) :=
  keeps_update fun _ hp => hp.addVar m name ty

@[spec] theorem keeps_readDeclared (m : MethodId) (ty : Ty) : Keeps (readDeclared m ty) := by
  mvcgen [readDeclared]

@[spec] theorem keeps_readVarDecl (m : MethodId) : Keeps (readVarDecl m) := by
  have hnames := fun ty => keeps_commas (keeps_readDeclared m ty)
  mvcgen [readVarDecl, hnames]

@[spec] theorem keeps_atLabel : Keeps atLabel := by mvcgen [atLabel]

/-- Reading an item also keeps the labels of the draft inside it. -/
theorem readItem_inside (m : MethodId) {d : Draft} (hd : d.LabelsInside) :
    ⦃fun s => ⌜s.program.JumpsInside⌝⦄ readItem m d
    ⦃⇓? d' s => ⌜s.program.JumpsInside ∧ d'.LabelsInside⌝⦄ := by
  mvcgen [readItem]
  · exact ⟨‹_›, hd.addLabel _⟩
  · exact ⟨‹_›, hd.addLabel _⟩
  · exact ⟨‹_›, hd.addStmt _⟩

theorem readItems_inside (m : MethodId) (bound : Nat) {d : Draft} (hd : d.LabelsInside) :
    ⦃fun s => ⌜s.program.JumpsInside⌝⦄ readItems m bound d
    ⦃⇓? d' s => ⌜s.program.JumpsInside ∧ d'.LabelsInside⌝⦄ := by
  induction bound generalizing d with
  | zero => mvcgen [readItems]
  | succ bound ih =>
    mvcgen [readItems, readItem_inside, ih]
    all_goals grind

theorem finish_spec {d : Draft} (hd : d.LabelsInside) :
    ⦃fun s => ⌜s.program.JumpsInside⌝⦄ d.finish
    ⦃⇓? instrs s => ⌜s.program.JumpsInside ∧
      ∀ i ∈ instrs, ∀ t ∈ i.stmt.targets, t < instrs.length⌝⦄ := by
  intro s hs
  show (wp⟦d.finish s⟧ _).down
  cases h : d.finish s with
  | error e => trivial
  | ok x =>
    obtain ⟨-, -, hsame⟩ := Draft.finish_eq_ok.mp h
    exact ⟨hsame ▸ hs, d.finish_inside hd h⟩

theorem keeps_setBody (m : MethodId) {instrs : List Instr}
    (h : ∀ i ∈ instrs, ∀ t ∈ i.stmt.targets, t < instrs.length) :
    Keeps (modifyProgram (·.modifyMethod m fun d => { d with body := instrs.toArray })) :=
  keeps_update fun _ hp => hp.modifyMethod m fun _ _ i hi => by simpa using h i (by simpa using hi)

@[spec] theorem keeps_readBody (m : MethodId) : Keeps (readBody m) := by
  mvcgen [readBody, readInstrs, readItems_inside, finish_spec, keeps_setBody]
  · exact fun l hl => absurd hl List.not_mem_nil
  · exact ‹_ ∧ _›.1
  · exact ‹_ ∧ _›.1
  · exact fun _ _ hinside => hinside
  · exact fun _ _ => ‹_ ∧ _›.2

@[spec] theorem keeps_readBodies (bodies : List PendingBody) : Keeps (readBodies bodies) := by
  induction bodies with
  | nil => mvcgen [readBodies]
  | cons body bodies ih => mvcgen [readBodies, ih]

theorem keeps_readProgram : Keeps readProgram := by mvcgen [readProgram]

end Reader

namespace Program

/-- The program written as a list of tokens is the one that is left when they have been read. -/
theorem ofTokens_eq_ok {tokens : List LineToken} {p : Program} :
    ofTokens tokens = .ok p ↔
      ∃ s, Reader.readProgram ⟨tokens, {}, {}⟩ = .ok ((), s) ∧ s.program = p := by
  unfold ofTokens Diagnostics.parsing
  cases hread : Reader.readProgram ⟨tokens, {}, {}⟩ with
  | error said => exact ⟨nofun, nofun⟩
  | ok x =>
    constructor
    · intro h
      cases h
      exact ⟨x.2, rfl, rfl⟩
    · rintro ⟨s, hs, rfl⟩
      cases hs
      rfl

/-- **In every accepted program jumps stay inside their body.** -/
theorem jumpsInside_of_ofTokens {tokens : List LineToken} {p : Program}
    (h : ofTokens tokens = .ok p) : p.JumpsInside := by
  have hkeeps := Reader.keeps_readProgram ⟨tokens, {}, {}⟩
    fun d hd => absurd hd (Array.not_mem_empty d)
  obtain ⟨s, hs, rfl⟩ := ofTokens_eq_ok.mp h
  have hrun : (wp⟦Reader.readProgram ⟨tokens, {}, {}⟩⟧
      (fun r => ⌜r.2.program.JumpsInside⌝, ExceptConds.true)).down := hkeeps
  rw [hs] at hrun
  exact hrun

theorem jumpsInside_of_ofSource {source : String} {p : Program}
    (h : ofSource source = .ok p) : p.JumpsInside := by
  unfold ofSource at h
  split at h
  · cases h
  · split at h
    · cases h
    · rename_i hp
      cases h
      exact jumpsInside_of_ofTokens hp

/-- A program that is read from a text and passes a test. -/
theorem exists_of_any_ofSource (source : String) (test : Program → Bool)
    (h : (ofSource source).toOption.any test = true) :
    ∃ p, ofSource source = .ok p ∧ test p = true := by
  cases hp : ofSource source with
  | error e =>
    rw [hp] at h
    cases h
  | ok p =>
    rw [hp] at h
    exact ⟨p, rfl, h⟩

end Program

end ObjectFlow
