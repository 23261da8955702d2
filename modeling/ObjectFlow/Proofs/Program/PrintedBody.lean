/-
  File:      ObjectFlow/Proofs/Program/PrintedBody.lean
  Subject:   THE TOKENS OF A PRINTED BODY.

  * `Program.stmtTokens`: the tokens of a statement, jumps going to the labels `L0`, `L1`, …;
  * `Program.printedBody`: the body of a method in braces, its variables declared first and then
    the lines of its statements;
  * `emits_stmtText`, `emits_printedBody`: the texts give these tokens, whatever follows them.
-/
import ObjectFlow.Program.Printer
import ObjectFlow.Proofs.Program.Bodies
import ObjectFlow.Proofs.Program.Signatures
import ObjectFlow.Proofs.Token.Writing

namespace ObjectFlow

/-! ## 1. Tokens of statements -/

/-- The variables a method declares in its body. -/
def MethodDecl.locals (d : MethodDecl) : List VarId :=
  d.vars.drop (d.this.toList.length + d.params.length)

namespace Program

variable (p : Program)

def tyTokens : Ty → List Token
  | .prim t => [.keyword (.prim t)]
  | .object c => [.ident (p.classAt c).name]
  | .array elem => tyTokens elem ++ [.mark .leftBracket, .mark .rightBracket]

def varToken (v : VarId) : Token := .ident (p.varName v)

/-- What stands before the dot of a field access. -/
def baseName (base : Option VarId) (f : FieldId) : String :=
  match base with
  | some b => p.varName b
  | none => (p.classAt (p.fieldAt f).owner).name

def accessTokens (base : Option VarId) (f : FieldId) : List Token :=
  [.ident (p.baseName base f), .mark .dot, .ident (p.fieldAt f).name]

def argTokens : List VarId → List Token
  | [] => []
  | [v] => [p.varToken v]
  | v :: rest => p.varToken v :: .mark .comma :: argTokens rest

def refToken (r : MethodRef) : Token :=
  .signature (String.ofList (signatureChars (p.classAt r.owner).name (p.subsigAt r.subsig)))

def invokeTokens (i : Invoke) : List Token :=
  .keyword (.invoke i.kind) ::
    ((i.base.map fun b => [p.varToken b, .mark .dot]).getD []
      ++ p.refToken i.target :: .mark .leftParen :: (p.argTokens i.args ++ [.mark .rightParen]))

def expTokens : Exp → List Token
  | .var v => [p.varToken v]
  | .int value => [.integer value]
  | .binary op left right => [p.varToken left, .operator op, p.varToken right]
  | .cast ty v => .mark .leftParen :: (p.tyTokens ty ++ [.mark .rightParen, p.varToken v])

def labelToken (target : Nat) : Token := .ident (label target)

def caseTokens (arm : Int32 × Nat) : List Token :=
  [.keyword .caseArm, .integer arm.1, .mark .colon, labelToken arm.2, .mark .semicolon]

/-- The tokens of a statement up to its semicolon, if it has one. -/
def coreTokens : Stmt → List Token
  | .alloc lhs (.array elem) (some length) =>
    p.varToken lhs :: .mark .assign :: .keyword .newObject ::
      (p.tyTokens elem ++ [.mark .leftBracket, p.varToken length, .mark .rightBracket])
  | .alloc lhs ty _ => p.varToken lhs :: .mark .assign :: .keyword .newObject :: p.tyTokens ty
  | .assign lhs rhs => p.varToken lhs :: .mark .assign :: p.expTokens rhs
  | .loadField lhs base field => p.varToken lhs :: .mark .assign :: p.accessTokens base field
  | .storeField base field rhs => p.accessTokens base field ++ [.mark .assign, p.varToken rhs]
  | .loadArray lhs base index =>
    [p.varToken lhs, .mark .assign, p.varToken base, .mark .leftBracket, p.varToken index,
      .mark .rightBracket]
  | .storeArray base index rhs =>
    [p.varToken base, .mark .leftBracket, p.varToken index, .mark .rightBracket, .mark .assign,
      p.varToken rhs]
  | .call i => (i.result.map fun r => [p.varToken r, .mark .assign]).getD [] ++ p.invokeTokens i
  | .branch left op right target =>
    [.keyword .ifJump, p.varToken left, .operator op, p.varToken right, .keyword .gotoJump,
      labelToken target]
  | .jump target => [.keyword .gotoJump, labelToken target]
  | .switch on cases otherwise =>
    .keyword .switchJump :: .mark .leftParen :: p.varToken on :: .mark .rightParen ::
      .mark .leftBrace :: (cases.flatMap caseTokens ++
        [.keyword .defaultArm, .mark .colon, labelToken otherwise, .mark .semicolon,
          .mark .rightBrace])
  | .ret (some v) => [.keyword .returnJump, p.varToken v]
  | .ret none => [.keyword .returnJump]
  | .nop => [.keyword .nopMark]

/-- The tokens that end a statement. -/
def endTokens : Stmt → List Token
  | .switch _ _ _ => []
  | _ => [.mark .semicolon]

def stmtTokens (stmt : Stmt) : List Token := p.coreTokens stmt ++ endTokens stmt

/-! ## 2. Texts of statements -/

section Texts

variable {p} {m : MethodId} {cs : List Char} {ts : List Token} {d : Char}

theorem emits_tyName {ty : Ty} (hty : ty.Known p) (hd : isWordChar d = false)
    (h : Emits (d :: cs) ts) : Emits ((p.tyName ty).toList ++ d :: cs) (p.tyTokens ty ++ ts) := by
  induction ty generalizing d cs ts with
  | prim t => exact .keyword (.prim t) hd h
  | object c => exact .name hty.2 hd h
  | array elem ih =>
    rw [tyName, String.toList_append, tyTokens, List.append_assoc, List.append_assoc]
    exact ih hty (by decide) (.single rfl (.single rfl h))

theorem emits_args {vs : List VarId} (hvs : ∀ v ∈ vs, IsName (p.varName v))
    (h : Emits (')' :: cs) ts) :
    Emits ((", ".intercalate (vs.map p.varName)).toList ++ ')' :: cs) (p.argTokens vs ++ ts) := by
  rw [String.toList_intercalate]
  induction vs with
  | nil => exact h
  | cons v vs ih =>
    have hv := hvs v List.mem_cons_self
    have ih := ih fun w hw => hvs w (List.mem_cons_of_mem v hw)
    cases vs with
    | nil =>
      simp only [List.map_cons, List.map_nil, List.intercalate_singleton]
      exact .name hv rfl h
    | cons w vs =>
      simp only [List.map_cons, List.intercalate_cons_cons, List.append_assoc] at ih ⊢
      exact .name hv rfl (.single rfl (.space ih))

theorem toList_label (target : Nat) : (label target).toList = 'L' :: Nat.toDigits 10 target := by
  rw [label, String.toList_append]
  exact congrArg ('L' :: ·) Nat.toList_repr

theorem label_injective {i j : Nat} (h : label i = label j) : i = j := by
  have hdigits := (List.cons.inj ((toList_label i).symm.trans (h ▸ toList_label j))).2
  rw [← Text.digitsValue_toDigits i, hdigits, Text.digitsValue_toDigits]

theorem isName_label (target : Nat) : IsName (label target) := by
  refine .inr ⟨?_, ?_⟩
  · rw [toList_label]
    refine ⟨rfl, fun c hc => ?_⟩
    have hdigit := Nat.isDigit_of_mem_toDigits (b := 10) (by decide) (by decide) hc
    simp [isWordChar, Char.isAlphanum, hdigit]
  · -- no reserved word starts with that letter
    have hall : ∀ k ∈ Keyword.all, k.word.toList.head? ≠ some 'L' := by decide
    refine List.find?_eq_none.mpr fun k hk heq => hall k hk ?_
    rw [of_decide_eq_true heq, toList_label]
    rfl

theorem emits_accessText {base : Option VarId} {f : FieldId} (hbase : IsName (p.baseName base f))
    (hname : IsName (p.fieldAt f).name) (hd : isWordChar d = false) (h : Emits (d :: cs) ts) :
    Emits ((p.accessText base f).toList ++ d :: cs) (p.accessTokens base f ++ ts) := by
  have htext : (p.accessText base f).toList ++ d :: cs =
      (p.baseName base f).toList ++ '.' :: ((p.fieldAt f).name.toList ++ d :: cs) := by
    cases base <;> simp [accessText, baseName]
  rw [htext]
  exact .name hbase rfl (.single rfl (.name hname hd h))

/-- What stands before the dot of a known access can be written. -/
theorem isName_baseName (hp : p.Coherent) (hm : m < p.methods.size) {base : Option VarId}
    {f : FieldId} (h : p.FieldAccess m base f) : IsName (p.baseName base f) := by
  cases base with
  | none => exact (hp.fields f h.field).ownerName
  | some b => exact (hp.vars b (hp.var_lt hm (h.found b rfl).1.mem)).name

theorem RefKnown.isSignature {r : MethodRef} {arity : Nat} (hr : p.RefKnown r arity) :
    IsSignature (signatureChars (p.classAt r.owner).name (p.subsigAt r.subsig)) := by
  obtain ⟨text, subsig, htext, hcut, hsubsig⟩ := hr.written
  rw [hsubsig]
  refine isSignature_printed htext hcut ?_
  rw [← hsubsig, hr.arity]
  rfl

theorem emits_invokeText {i : Invoke} (hbase : ∀ b ∈ i.base, IsName (p.varName b))
    (hargs : ∀ v ∈ i.args, IsName (p.varName v)) {arity : Nat} (hr : p.RefKnown i.target arity)
    (h : Emits cs ts) :
    Emits ((p.invokeText i).toList ++ cs) (p.invokeTokens i ++ .mark .semicolon :: ts) := by
  have hsig : Emits ((p.refSignature i.target).toList ++
      '(' :: ((", ".intercalate (i.args.map p.varName)).toList ++ ')' :: ';' :: cs))
      (p.refToken i.target :: .mark .leftParen ::
        (p.argTokens i.args ++ .mark .rightParen :: .mark .semicolon :: ts)) := by
    have htext : (p.refSignature i.target).toList ++
        '(' :: ((", ".intercalate (i.args.map p.varName)).toList ++ ')' :: ';' :: cs) =
        '<' :: (signatureChars (p.classAt i.target.owner).name (p.subsigAt i.target.subsig) ++ '>' ::
          '(' :: ((", ".intercalate (i.args.map p.varName)).toList ++ ')' :: ';' :: cs)) := by
      simp [refSignature, signatureChars]
    rw [htext]
    exact .signature hr.isSignature (.single rfl (emits_args hargs (.single rfl (.single rfl h))))
  unfold invokeText invokeTokens
  cases hb : i.base with
  | none =>
    simp only [String.toList_append, List.append_assoc, Option.map_none, Option.getD_none,
      List.nil_append, List.cons_append]
    exact .keyword (.invoke i.kind) rfl (.space hsig)
  | some b =>
    simp only [String.toList_append, List.append_assoc, Option.map_some, Option.getD_some,
      List.nil_append, List.cons_append]
    exact .keyword (.invoke i.kind) rfl (.space (.name (hbase b hb) rfl (.single rfl hsig)))

theorem emits_cases (cases : List (Int32 × Nat)) (h : Emits cs ts) :
    Emits ((String.join (cases.map fun (value, target) =>
        "case " ++ toString value.toInt ++ ": " ++ label target ++ "; ")).toList ++ cs)
      (cases.flatMap caseTokens ++ ts) := by
  rw [String.toList_join]
  induction cases with
  | nil => exact h
  | cons arm cases ih =>
    simp only [List.map_cons, List.flatMap_cons, String.toList_append, String.reduceToList,
      List.append_assoc, List.cons_append, List.nil_append, caseTokens]
    exact .keyword .caseArm rfl (.space (.integer arm.1 rfl (.single rfl (.space
      (.name (isName_label arm.2) rfl (.single rfl (.space ih)))))))

/-- **The text of a statement gives the tokens of the statement.** -/
theorem emits_stmtText (hp : p.Coherent) (hm : m < p.methods.size) {stmt : Stmt}
    (hstmt : stmt.Known p m) (h : Emits cs ts) :
    Emits ((p.stmtText stmt).toList ++ cs) (p.stmtTokens stmt ++ ts) := by
  have hname : ∀ v ∈ stmt.defined?.toList ++ stmt.uses, IsName (p.varName v) := fun v hv =>
    (hp.vars v (hp.var_lt hm (hstmt.vars v hv).mem)).name
  have hend : Emits (';' :: cs) (.mark .semicolon :: ts) := .single rfl h
  have hfits := hstmt.fits
  unfold stmtTokens
  cases stmt with
  | alloc lhs ty length =>
    have hlhs := hname lhs (by simp [StmtOf.defined?])
    have hplain : Emits ((p.varName lhs ++ " = new " ++ p.tyName ty ++ ";").toList ++ cs)
        (p.varToken lhs :: .mark .assign :: .keyword .newObject ::
          (p.tyTokens ty ++ .mark .semicolon :: ts)) := by
      simp only [String.toList_append, String.reduceToList, List.append_assoc, List.cons_append,
        List.nil_append]
      exact .name hlhs rfl (.space (.assign (.keyword .newObject rfl (.space
        (emits_tyName hfits.1 rfl hend)))))
    cases length with
    | none => simpa [stmtText, coreTokens, endTokens] using hplain
    | some length =>
      obtain ⟨elem, rfl⟩ := hfits.2 rfl
      have hlength := hname length (by simp [StmtOf.uses])
      simp only [stmtText, coreTokens, endTokens, String.toList_append, String.reduceToList,
        List.append_assoc, List.cons_append, List.nil_append]
      exact .name hlhs rfl (.space (.assign (.keyword .newObject rfl (.space
        (emits_tyName hfits.1 rfl (.single rfl (.name hlength rfl (.single rfl hend))))))))
  | assign lhs rhs =>
    have hlhs := hname lhs (by simp [StmtOf.defined?])
    cases rhs with
    | var v =>
      have hv := hname v (by simp [StmtOf.uses])
      simp only [stmtText, expText, coreTokens, expTokens, endTokens, String.toList_append,
        String.reduceToList, List.append_assoc, List.cons_append, List.nil_append]
      exact .name hlhs rfl (.space (.assign (.name hv rfl hend)))
    | int value =>
      simp only [stmtText, expText, coreTokens, expTokens, endTokens, String.toList_append,
        String.reduceToList, List.append_assoc, List.cons_append, List.nil_append]
      exact .name hlhs rfl (.space (.assign (.integer value rfl hend)))
    | binary op left right =>
      have hleft := hname left (by simp [StmtOf.uses])
      have hright := hname right (by simp [StmtOf.uses])
      simp only [stmtText, expText, coreTokens, expTokens, endTokens, String.toList_append,
        String.reduceToList, List.append_assoc, List.cons_append, List.nil_append]
      exact .name hlhs rfl (.space (.assign (.name hleft rfl (.space (.operator op
        (.name hright rfl hend))))))
    | cast ty v =>
      have hv := hname v (by simp [StmtOf.uses])
      simp only [stmtText, expText, coreTokens, expTokens, endTokens, String.toList_append,
        String.reduceToList, List.append_assoc, List.cons_append, List.nil_append]
      exact .name hlhs rfl (.space (.assign (.single rfl (emits_tyName hfits rfl (.single rfl
        (.space (.name hv rfl hend)))))))
  | loadField lhs base field =>
    have hlhs := hname lhs (by simp [StmtOf.defined?])
    simp only [stmtText, coreTokens, endTokens, String.toList_append, String.reduceToList,
      List.append_assoc, List.cons_append, List.nil_append]
    exact .name hlhs rfl (.space (.assign (emits_accessText (isName_baseName hp hm hfits)
      (hp.fields field hfits.field).name rfl hend)))
  | storeField base field rhs =>
    have hrhs := hname rhs (by simp [StmtOf.uses])
    simp only [stmtText, coreTokens, endTokens, String.toList_append, String.reduceToList,
      List.append_assoc, List.cons_append, List.nil_append]
    exact emits_accessText (isName_baseName hp hm hfits) (hp.fields field hfits.field).name rfl
      (.space (.assign (.name hrhs rfl hend)))
  | loadArray lhs base index =>
    have hlhs := hname lhs (by simp [StmtOf.defined?])
    have hbase := hname base (by simp [StmtOf.uses])
    have hindex := hname index (by simp [StmtOf.uses])
    simp only [stmtText, coreTokens, endTokens, String.toList_append, String.reduceToList,
      List.append_assoc, List.cons_append, List.nil_append]
    exact .name hlhs rfl (.space (.assign (.name hbase rfl (.single rfl (.name hindex rfl
      (.single rfl hend))))))
  | storeArray base index rhs =>
    have hbase := hname base (by simp [StmtOf.uses])
    have hindex := hname index (by simp [StmtOf.uses])
    have hrhs := hname rhs (by simp [StmtOf.uses])
    simp only [stmtText, coreTokens, endTokens, String.toList_append, String.reduceToList,
      List.append_assoc, List.cons_append, List.nil_append]
    exact .name hbase rfl (.single rfl (.name hindex rfl (.single rfl (.space (.assign
      (.name hrhs rfl hend))))))
  | call i =>
    have hinvoke := emits_invokeText (i := i) (fun b hb => hname b (by
      simp [StmtOf.uses, Option.mem_def.mp hb])) (fun v hv => hname v (by simp [StmtOf.uses, hv]))
      hfits.2 h
    cases hresult : i.result with
    | none => simpa [stmtText, coreTokens, endTokens, hresult] using hinvoke
    | some r =>
      have hr := hname r (by simp [StmtOf.defined?, hresult])
      simp only [stmtText, coreTokens, endTokens, hresult, String.toList_append,
        String.reduceToList, List.append_assoc, List.cons_append, List.nil_append, Option.map_some,
        Option.getD_some]
      exact .name hr rfl (.space (.assign hinvoke))
  | branch left op right target =>
    have hleft := hname left (by simp [StmtOf.uses])
    have hright := hname right (by simp [StmtOf.uses])
    simp only [stmtText, coreTokens, endTokens, String.toList_append, String.reduceToList,
      List.append_assoc, List.cons_append, List.nil_append]
    exact .keyword .ifJump rfl (.space (.name hleft rfl (.space (.operator op (.name hright rfl
      (.space (.keyword .gotoJump rfl (.space (.name (isName_label target) rfl hend)))))))))
  | jump target =>
    simp only [stmtText, coreTokens, endTokens, String.toList_append, String.reduceToList,
      List.append_assoc, List.cons_append, List.nil_append]
    exact .keyword .gotoJump rfl (.space (.name (isName_label target) rfl hend))
  | switch on cases otherwise =>
    have hon := hname on (by simp [StmtOf.uses])
    simp only [stmtText, coreTokens, endTokens, String.toList_append, String.reduceToList,
      List.append_assoc, List.cons_append, List.nil_append]
    exact .keyword .switchJump rfl (.space (.single rfl (.name hon rfl (.single rfl (.space
      (.single rfl (.space (emits_cases cases (.keyword .defaultArm rfl (.single rfl (.space
        (.name (isName_label otherwise) rfl (.single rfl (.space (.single rfl h)))))))))))))))
  | ret value =>
    cases value with
    | none =>
      simp only [stmtText, coreTokens, endTokens, String.reduceToList, List.cons_append,
        List.nil_append]
      exact .keyword .returnJump rfl hend
    | some v =>
      have hv := hname v (by simp [StmtOf.uses])
      simp only [stmtText, coreTokens, endTokens, String.toList_append, String.reduceToList,
        List.append_assoc, List.cons_append, List.nil_append]
      exact .keyword .returnJump rfl (.space (.name hv rfl hend))
  | nop =>
    simp only [stmtText, coreTokens, endTokens, String.reduceToList, List.cons_append,
      List.nil_append]
    exact .keyword .nopMark rfl hend

end Texts

/-! ## 3. Bodies -/

/-- The declaration of a variable. -/
def declText (v : VarId) : String := "  var " ++ p.tyName (p.varTy v) ++ " " ++ p.varName v ++ ";\n"

/-- A statement on a line of its own, with its label on the line before if it is a target. -/
def lineText (targets : List Nat) (line : Stmt × Nat) : String :=
  (if line.2 ∈ targets then label line.2 ++ ":\n" else "") ++ "  " ++ p.stmtText line.1 ++ "\n"

/-- The lines of the statements of a method. -/
def bodyLines (m : MethodId) : String :=
  String.join ((p.methodAt m).stmts.zipIdx.map
    (p.lineText ((p.methodAt m).stmts.flatMap StmtOf.targets)))

/-- They are what is printed between the braces of the method. -/
theorem methodText_eq (m : MethodId) :
    p.methodText m (fun _ => none) =
      p.signature m ++ " \x7b\n" ++ p.bodyLines m ++ "\x7d\n" := by
  have hline : ∀ line : Stmt × Nat,
      ((if line.2 ∈ (p.methodAt m).stmts.flatMap StmtOf.targets then label line.2 ++ ":\n" else "")
        ++ "  " ++ p.stmtText line.1 ++ "" ++ "\n") =
        p.lineText ((p.methodAt m).stmts.flatMap StmtOf.targets) line := by
    intro line
    rw [String.append_empty]
    rfl
  unfold methodText bodyLines
  dsimp only
  simp only [hline]

/-- **The body of a method in braces**: its variables, and the lines of its statements. -/
def printedBody (m : MethodId) : String :=
  "\x7b\n" ++ String.join ((p.methodAt m).locals.map p.declText) ++ p.bodyLines m ++ "\x7d"

def declTokens (v : VarId) : List Token :=
  .keyword .varDecl :: (p.tyTokens (p.varTy v) ++ [p.varToken v, .mark .semicolon])

def lineTokens (targets : List Nat) (line : Stmt × Nat) : List Token :=
  (if line.2 ∈ targets then [labelToken line.2, .mark .colon] else []) ++ p.stmtTokens line.1

/-- The tokens of the printed body between its braces. -/
def bodyTokens (m : MethodId) : List Token :=
  (p.methodAt m).locals.flatMap p.declTokens ++
    (p.methodAt m).stmts.zipIdx.flatMap
      (p.lineTokens ((p.methodAt m).stmts.flatMap StmtOf.targets))

variable {p}

/-- Texts one after the other give their tokens one after the other. -/
theorem emits_join {α : Type} {text : α → String} {tokens : α → List Token} {items : List α}
    (h : ∀ a ∈ items, Emits (text a).toList (tokens a)) :
    Emits (String.join (items.map text)).toList (items.flatMap tokens) := by
  rw [String.toList_join]
  induction items with
  | nil => exact .nil
  | cons a items ih =>
    rw [List.map_cons, List.flatMap_cons, List.flatMap_cons]
    exact (h a List.mem_cons_self).append (ih fun b hb => h b (List.mem_cons_of_mem a hb))

theorem emits_declText {v : VarId} (hname : IsName (p.varName v)) (hty : (p.varTy v).Known p) :
    Emits (p.declText v).toList (p.declTokens v) := by
  simp only [declText, declTokens, String.toList_append, String.reduceToList, List.append_assoc,
    List.cons_append, List.nil_append]
  exact .space (.space (.keyword .varDecl rfl (.space (emits_tyName hty rfl (.space
    (.name hname rfl (.single rfl (.newline .nil))))))))

theorem emits_lineText (hp : p.Coherent) {m : MethodId} (hm : m < p.methods.size)
    (targets : List Nat) {line : Stmt × Nat} (hstmt : line.1.Known p m) :
    Emits (p.lineText targets line).toList (p.lineTokens targets line) := by
  have hline : Emits ("  " ++ p.stmtText line.1 ++ "\n").toList (p.stmtTokens line.1) := by
    have htext := emits_stmtText hp hm hstmt (.newline .nil)
    rw [List.append_nil] at htext
    simp only [String.toList_append, String.reduceToList, List.cons_append, List.nil_append]
    exact .space (.space htext)
  have hmark : Emits (if line.2 ∈ targets then label line.2 ++ ":\n" else "").toList
      (if line.2 ∈ targets then [labelToken line.2, .mark .colon] else []) := by
    split
    · rw [String.toList_append]
      exact .name (isName_label line.2) rfl (.single rfl (.newline .nil))
    · exact .nil
  have heq : (p.lineText targets line).toList =
      (if line.2 ∈ targets then label line.2 ++ ":\n" else "").toList ++
        ("  " ++ p.stmtText line.1 ++ "\n").toList := by
    simp [lineText]
  rw [heq]
  exact hmark.append hline

theorem toList_printedBody (p : Program) (m : MethodId) :
    (p.printedBody m).toList = '{' :: '\n' ::
      ((String.join ((p.methodAt m).locals.map p.declText)).toList ++ ((p.bodyLines m).toList ++
        ['}'])) := by
  simp [printedBody]

/-- **The text of a printed body gives the tokens of the body.** -/
theorem emits_printedBody (h : p.Filled) {m : MethodId} (hm : m < p.methods.size) :
    Emits (p.printedBody m).toList (.mark .leftBrace :: (p.bodyTokens m ++ [.mark .rightBrace])) := by
  have hlocals : ∀ v ∈ (p.methodAt m).locals, Emits (p.declText v).toList (p.declTokens v) := by
    intro v hv
    have hvar := h.coherent.vars v (h.coherent.var_lt hm (List.mem_of_mem_drop hv))
    exact emits_declText hvar.name hvar.ty
  have hlines : ∀ line ∈ (p.methodAt m).stmts.zipIdx,
      Emits (p.lineText ((p.methodAt m).stmts.flatMap StmtOf.targets) line).toList
        (p.lineTokens ((p.methodAt m).stmts.flatMap StmtOf.targets) line) := by
    intro line hline
    obtain ⟨i, hi, heq⟩ := List.mem_map.mp (List.fst_mem_of_mem_zipIdx hline)
    refine emits_lineText h.coherent hm _ ?_
    rw [← heq]
    exact h.known m hm i (Array.mem_toList_iff.mp hi)
  have hclose : Emits ['}'] [.mark .rightBrace] := .single rfl .nil
  have hbody := (emits_join hlocals).append ((emits_join hlines).append hclose)
  rw [toList_printedBody, bodyTokens, List.append_assoc]
  exact .single rfl (.newline hbody)

end Program

/-! ## 4. Characters of a printed body -/

namespace Program

variable {p : Program} {m : MethodId}

theorem isAscii_tyName {ty : Ty} (h : ty.Known p) : IsAscii (p.tyName ty).toList :=
  fun _ hc => (toNat_of_isTypeChar (isTypeChar_tyName h hc)).2

theorem isAscii_accessText (hp : p.Coherent) (hm : m < p.methods.size) {base : Option VarId}
    {f : FieldId} (h : p.FieldAccess m base f) : IsAscii (p.accessText base f).toList := by
  have htext : (p.accessText base f).toList =
      (p.baseName base f).toList ++ '.' :: (p.fieldAt f).name.toList := by
    cases base <;> simp [accessText, baseName]
  rw [htext, isAscii_append, isAscii_cons]
  exact ⟨(isName_baseName hp hm h).isAscii, by decide, (hp.fields f h.field).name.isAscii⟩

theorem isAscii_invokeText {i : Invoke} (hbase : ∀ b ∈ i.base, IsAscii (p.varName b).toList)
    (hargs : ∀ v ∈ i.args, IsAscii (p.varName v).toList) {arity : Nat}
    (hr : p.RefKnown i.target arity) : IsAscii (p.invokeText i).toList := by
  have hword : IsAscii i.kind.word.toList := by cases i.kind <;> simp [CallKind.word]
  have hsignature : IsAscii (p.refSignature i.target).toList := by
    have hascii := hr.isSignature.ascii
    simp only [signatureChars, isAscii_append, isAscii_cons] at hascii
    simp [refSignature, hascii]
  have hnames : IsAscii (", ".intercalate (i.args.map p.varName)).toList := by
    refine isAscii_intercalate (by simp) fun text htext => ?_
    obtain ⟨v, hv, rfl⟩ := List.mem_map.mp htext
    exact hargs v hv
  unfold invokeText
  cases hb : i.base with
  | none => simp [hword, hsignature, hnames, -String.toList_intercalate]
  | some b => simp [hword, hsignature, hnames, hbase b hb, -String.toList_intercalate]

theorem isAscii_stmtText (hp : p.Coherent) (hm : m < p.methods.size) {stmt : Stmt}
    (hstmt : stmt.Known p m) : IsAscii (p.stmtText stmt).toList := by
  have hname : ∀ v ∈ stmt.defined?.toList ++ stmt.uses, IsAscii (p.varName v).toList := fun v hv =>
    (hp.vars v (hp.var_lt hm (hstmt.vars v hv).mem)).name.isAscii
  have hlabel : ∀ target, IsAscii (label target).toList := fun target =>
    (isName_label target).isAscii
  have hsymbol : ∀ op : BinaryOp, IsAscii op.symbol.toList := fun op => by
    cases op <;> simp [BinaryOp.symbol]
  have hfits := hstmt.fits
  cases stmt with
  | alloc lhs ty length =>
    have hty := isAscii_tyName hfits.1
    cases length with
    | none => simpa [stmtText, hty, StmtOf.defined?, StmtOf.uses] using hname
    | some length =>
      obtain ⟨elem, rfl⟩ := hfits.2 rfl
      have helem : IsAscii (p.tyName elem).toList := isAscii_tyName hfits.1
      simpa [stmtText, helem, StmtOf.defined?, StmtOf.uses] using hname
  | assign lhs rhs =>
    cases rhs with
    | var v => simpa [stmtText, expText, StmtOf.defined?, StmtOf.uses] using hname
    | int value =>
      simpa [stmtText, expText, isAscii_repr, StmtOf.defined?, StmtOf.uses] using hname
    | binary op left right =>
      simpa [stmtText, expText, hsymbol, StmtOf.defined?, StmtOf.uses] using hname
    | cast ty v =>
      have hty := isAscii_tyName hfits
      simpa [stmtText, expText, hty, StmtOf.defined?, StmtOf.uses] using hname
  | loadField lhs base field =>
    have haccess := isAscii_accessText hp hm hfits
    have hlhs := hname lhs (by simp [StmtOf.defined?])
    simp [stmtText, haccess, hlhs]
  | storeField base field rhs =>
    have haccess := isAscii_accessText hp hm hfits
    have hrhs := hname rhs (by simp [StmtOf.uses])
    simp [stmtText, haccess, hrhs]
  | loadArray lhs base index => simpa [stmtText, StmtOf.defined?, StmtOf.uses] using hname
  | storeArray base index rhs => simpa [stmtText, StmtOf.defined?, StmtOf.uses] using hname
  | call i =>
    have hinvoke := isAscii_invokeText (fun b hb => hname b (by
      simp [StmtOf.uses, Option.mem_def.mp hb])) (fun v hv => hname v (by simp [StmtOf.uses, hv]))
      hfits.2
    cases hresult : i.result with
    | none => simpa [stmtText, hresult] using hinvoke
    | some r =>
      have hr := hname r (by simp [StmtOf.defined?, hresult])
      simp [stmtText, hresult, hinvoke, hr]
  | branch left op right target =>
    simpa [stmtText, hlabel, hsymbol, StmtOf.defined?, StmtOf.uses] using hname
  | jump target => simp [stmtText, hlabel]
  | switch on cases otherwise =>
    have hcases : IsAscii (String.join (cases.map fun (value, target) =>
        "case " ++ toString value.toInt ++ ": " ++ label target ++ "; ")).toList := by
      refine isAscii_join fun text htext => ?_
      obtain ⟨arm, -, rfl⟩ := List.mem_map.mp htext
      simp [hlabel, isAscii_repr]
    have hon := hname on (by simp [StmtOf.uses])
    simp only [stmtText, String.toList_append, isAscii_append]
    simp only [hcases, hon, hlabel]
    simp
  | ret value =>
    cases value with
    | none => simp [stmtText]
    | some v => simpa [stmtText, StmtOf.defined?, StmtOf.uses] using hname
  | nop => simp [stmtText]

theorem isAscii_printedBody (h : p.Filled) (hm : m < p.methods.size) :
    IsAscii (p.printedBody m).toList := by
  have hlocals : IsAscii (String.join ((p.methodAt m).locals.map p.declText)).toList := by
    refine isAscii_join fun text htext => ?_
    obtain ⟨v, hv, rfl⟩ := List.mem_map.mp htext
    have hvar := h.coherent.vars v (h.coherent.var_lt hm (List.mem_of_mem_drop hv))
    have hname : IsAscii (p.varName v).toList := hvar.name.isAscii
    have hty : IsAscii (p.tyName (p.varTy v)).toList := isAscii_tyName hvar.ty
    simp [declText, hname, hty]
  have hlines : IsAscii (p.bodyLines m).toList := by
    refine isAscii_join fun text htext => ?_
    obtain ⟨line, hline, rfl⟩ := List.mem_map.mp htext
    obtain ⟨i, hi, heq⟩ := List.mem_map.mp (List.fst_mem_of_mem_zipIdx hline)
    have hstmt : IsAscii (p.stmtText line.1).toList := by
      refine isAscii_stmtText h.coherent hm ?_
      rw [← heq]
      exact h.known m hm i (Array.mem_toList_iff.mp hi)
    have hlabel := (isName_label line.2).isAscii
    unfold lineText
    split <;> simp [hstmt, hlabel]
  simp [printedBody, hlocals, hlines, -String.toList_join]

end Program

end ObjectFlow
