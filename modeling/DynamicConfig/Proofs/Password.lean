import DynamicConfig.Policy
import DynamicConfig.Proofs.Quoting
import DynamicConfig.Proofs.Revisions
import DynamicConfig.Proofs.Yields
/-!
# Passwords

The policy of a password is a source text that holds the password between quotes. It parses, whatever the
password is (`parseClean_passwordPolicy`), and its answer is whether the password that was given equals the
one it holds (`allowedBy_passwordPolicy`). So a user may call something exactly with the password that was
last set for this user (`last_password_authorizes_alone`).
-/

namespace DynamicConfig

open Text.Quoted (encode)

/-! ## The policy as an expression -/

/-- A source text of one operator between two leaves. -/
theorem RawTree.ofSource_operation {source : String} {left op right : Token} {l r : Leaf} {symbol : Symbol}
    (h : lexemes source = [.token left, .token op, .token right]) (hl : left.leaf? = some l)
    (hs : op.symbol? = some symbol) (hb : symbol.isBracket = false) (hr : right.leaf? = some r) :
    RawTree.ofSource (some Frame.maxHeight) source =
      (.binary symbol op.location (.leaf l left.location) (.leaf r right.location), []) := by
  obtain ⟨hln, hlt⟩ := Token.leaf?_eq_some_iff.1 hl
  obtain ⟨hrn, hrt⟩ := Token.leaf?_eq_some_iff.1 hr
  have hleft : RawTree.ofToken left = (.leaf l left.location, []) := by simp [RawTree.ofToken, hlt]
  have hright : RawTree.ofToken right = (.leaf r right.location, []) := by simp [RawTree.ofToken, hrt]
  rw [RawTree.ofSource, h, Reading.run_step (.term hln), Reading.run_step (.operator hs hb),
    Reading.run_step (.term hrn), hleft, hright]
  rfl

theorem lexemes_passwordPolicy (password : String) :
    lexemes (passwordPolicy password) =
      [.token ⟨"secret", 0, 6⟩, .token ⟨"==", 7, 9⟩, .token (.startingAt 10 (encode password))] := by
  have hsource : (passwordPolicy password).toList = "secret == ".toList ++ (encode password).toList :=
    String.toList_append
  have hpassword := Scanner.scan_encode password 10 []
  rw [List.append_nil] at hpassword
  rw [lexemes, hsource]
  calc Scanner.between.scan 0 ("secret == ".toList ++ (encode password).toList)
    _ = .token ⟨"secret", 0, 6⟩ :: .token ⟨"==", 7, 9⟩ :: Scanner.between.scan 10 (encode password).toList := rfl
    _ = _ := by rw [hpassword]; rfl

/-- The expression of the policy of a password. -/
def policyExpr (password : String) : Expr :=
  .node .eq ⟨7, 9⟩
    [.nameLeaf ⟨0, 6⟩ "secret", .stringLeaf (Token.startingAt 10 (encode password)).location password]

theorem parseClean_passwordPolicy (password : String) :
    parseClean (passwordPolicy password) = .ok (policyExpr password) := by
  have hsecret : (Token.mk "secret" ⟨0, 6⟩).leaf? = some (.name "secret") := rfl
  have hequal : (Token.mk "==" ⟨7, 9⟩).symbol? = some .equal := rfl
  have hraw := RawTree.ofSource_operation (lexemes_passwordPolicy password) hsecret hequal rfl
    (Token.leaf?_encode password 10)
  rw [parseClean, parse, hraw]
  rfl

/-! ## The answer of the policy -/

/-- The answer of a source text without faults is that of its expression, in the scope of the arguments. -/
theorem answerSource_of_parseClean {context : Context} {args : List (String × Json)} {source : String} {e : Expr}
    {scope : ScopeId} {m : Machine} (hparse : parseClean source = .ok e)
    (hbind : (Machine.bindArguments globalScope args).run (Machine.initial context) = (scope, m)) :
    answerSource context args source = ((evaluate Host.builtin e scope).run.run m).1.mapError .fatal := by
  simp only [answerSource, StateT.run_bind, hbind, evalSource, hparse]
  rfl

/-- The answer of a source text whose expression yields a value in the scope of the arguments. -/
theorem answerSource_of_yields {context : Context} {args : List (String × Json)} {source : String} {e : Expr}
    {scope : ScopeId} {m : Machine} {v : Value} (hparse : parseClean source = .ok e)
    (hbind : (Machine.bindArguments globalScope args).run (Machine.initial context) = (scope, m))
    (hm : m.Undisturbed m.scopes) (h : Eval.Yields m.scopes (evalWithin Host.builtin m.context.room e scope) v) :
    answerSource context args source = .ok v := by
  obtain ⟨m', hrun, -⟩ := h m hm
  have heval : (evaluate Host.builtin e scope).run.run m = (.ok v, m') := hrun
  rw [answerSource_of_parseClean hparse hbind, heval]
  rfl

/-- The scopes in which a policy is evaluated: that of the built-in names, and that of what is asked. -/
def requestScopes (user password api : String) : Scopes :=
  #[⟨[], globals⟩,
    ⟨[globalScope],
      [⟨.string "key", .evaluated (.string user)⟩, ⟨.string "secret", .evaluated (.string password)⟩,
        ⟨.string "api", .evaluated (.string api)⟩]⟩]

theorem bindArguments_request (context : Context) (user password api : String) :
    (Machine.bindArguments globalScope
        [("key", .string user), ("secret", .string password), ("api", .string api)]).run (Machine.initial context) =
      (1, { Machine.initial context with scopes := requestScopes user password api }) :=
  rfl

theorem find?_secret (user password api : String) :
    (requestScopes user password api).find? 1 (.string "secret") =
      some (1, 1, ⟨.string "secret", .evaluated (.string password)⟩) :=
  rfl

theorem yields_policyExpr (room : Nat) (user password presented api : String) :
    Eval.Yields (requestScopes user presented api) (evalWithin Host.builtin (room + 2) (policyExpr password) 1)
      (.bool (presented == password)) :=
  have heq : Op.eq.isStrictBinary = true := rfl
  yields_binary heq (yields_name (find?_secret user presented api)) rfl (yields_string password) rfl

/-- In a context with room for an operator and its operand, a policy answers whether the passwords are equal. -/
theorem answerSource_passwordPolicy {context : Context} (hi : context.interrupted = false) (hr : 2 ≤ context.room)
    (user password presented api : String) :
    answerSource context [("key", .string user), ("secret", .string presented), ("api", .string api)]
      (passwordPolicy password) = .ok (.bool (presented == password)) := by
  obtain ⟨room, hroom⟩ := Nat.exists_eq_add_of_le' hr
  refine answerSource_of_yields (parseClean_passwordPolicy password) (bindArguments_request context user presented api)
    ⟨rfl, hi⟩ ?_
  show Eval.Yields _ (evalWithin Host.builtin context.room (policyExpr password) 1) _
  rw [hroom]
  exact yields_policyExpr room user password presented api

/-- No setting changes what the policy of a password allows: that password alone. -/
theorem allowedBy_passwordPolicy (settings : Settings) (user password presented api : String) :
    allowedBy settings.context (passwordPolicy password) user presented api = decide (presented = password) := by
  have hroom : 2 ≤ settings.context.room := show 2 ≤ 512 - 0 by decide
  rw [allowedBy, answerSource_passwordPolicy rfl hroom]
  by_cases h : presented = password <;> simp [h]

/-! ## Stored passwords -/

variable (settings : Settings) (store : MemoryStore)

/-- Gives users passwords, one after the other. -/
def setPasswords (calls : List (String × String)) (store : MemoryStore) : MemoryStore :=
  calls.foldl (fun store call => setPassword settings call.1 call.2 store) store

/-- Among some calls that give users passwords, the last one for the user gives this password. -/
def IsLastPassword (user password : String) (calls : List (String × String)) : Prop :=
  ∃ before after, calls = before ++ (user, password) :: after ∧ user ∉ after.map Prod.fst

/-- Whether a user may call something is decided by the user's present policy, and the store stays as it is. -/
theorem authorize_run (user presented api : String) :
    (authorize settings user presented api).run store =
      (((store.changesSince 0).entries.get? (settings.authPrefix ++ user)).any
        (allowedBy settings.context · user presented api), store) := by
  have hconfig : (Store.config : StateM MemoryStore Config).run store = ((store.changesSince 0).entries, store) := rfl
  rw [authorize, StateT.run_bind, hconfig]
  dsimp only [bind]
  cases (store.changesSince 0).entries.get? (settings.authPrefix ++ user) <;> rfl

/-- Users have policies of their own. -/
theorem policy_setPassword (user password other : String) :
    ((setPassword settings user password store).changesSince 0).entries.get? (settings.authPrefix ++ other) =
      if other = user then some (passwordPolicy password)
      else (store.changesSince 0).entries.get? (settings.authPrefix ++ other) := by
  have h := store.get?_changesSince_set (Nat.zero_le _) (settings.authPrefix ++ user) (passwordPolicy password)
    (settings.authPrefix ++ other)
  simp only [String.append_right_inj] at h
  exact h

theorem authorize_setPassword_self (user password presented api : String) :
    ((authorize settings user presented api).run (setPassword settings user password store)).1 =
      decide (presented = password) := by
  rw [authorize_run, policy_setPassword, if_pos rfl, Option.any_some, allowedBy_passwordPolicy]

theorem authorize_setPassword_other {user other : String} (h : other ≠ user) (password presented api : String) :
    ((authorize settings user presented api).run (setPassword settings other password store)).1 =
      ((authorize settings user presented api).run store).1 := by
  rw [authorize_run, authorize_run, policy_setPassword, if_neg h.symm]

theorem authorize_setPasswords_other {user : String} {calls : List (String × String)}
    (h : user ∉ calls.map Prod.fst) (presented api : String) :
    ((authorize settings user presented api).run (setPasswords settings calls store)).1 =
      ((authorize settings user presented api).run store).1 := by
  induction calls generalizing store with
  | nil => rfl
  | cons call rest ih =>
    obtain ⟨hcall, hrest⟩ := not_or.1 (mt List.mem_cons.2 h)
    calc ((authorize settings user presented api).run (setPasswords settings (call :: rest) store)).1
      _ = ((authorize settings user presented api).run (setPassword settings call.1 call.2 store)).1 :=
        ih (setPassword settings call.1 call.2 store) hrest
      _ = _ := authorize_setPassword_other settings store (Ne.symm hcall) call.2 presented api

theorem setPasswords_append (before after : List (String × String)) :
    setPasswords settings (before ++ after) store = setPasswords settings after (setPasswords settings before store) :=
  List.foldl_append

/-- After some calls a user may call something exactly with the last password among them. -/
theorem authorize_setPasswords {user password : String} {calls : List (String × String)}
    (h : IsLastPassword user password calls) (presented api : String) :
    ((authorize settings user presented api).run (setPasswords settings calls store)).1 =
      decide (presented = password) := by
  obtain ⟨before, after, rfl, hafter⟩ := h
  rw [setPasswords_append]
  exact (authorize_setPasswords_other settings _ hafter presented api).trans
    (authorize_setPassword_self settings (setPasswords settings before store) user password presented api)

theorem exists_isLastPassword {user : String} {calls : List (String × String)} (h : user ∈ calls.map Prod.fst) :
    ∃ password, IsLastPassword user password calls := by
  induction calls with
  | nil => cases h
  | cons call rest ih =>
    -- The call counts if no later one is for the same user.
    by_cases hrest : user ∈ rest.map Prod.fst
    · obtain ⟨password, before, after, rfl, hafter⟩ := ih hrest
      exact ⟨password, call :: before, after, rfl, hafter⟩
    · obtain ⟨name, password⟩ := call
      obtain rfl : user = name := (List.mem_cons.1 h).resolve_right hrest
      exact ⟨password, [], rest, rfl, hrest⟩

/-- Over any store in memory and with any settings: once a user was given a password, the user may call
something exactly with the last one; and no password of another user changes what a user may call. -/
theorem last_password_authorizes_alone (user : String) :
    (∀ calls : List (String × String), user ∈ calls.map Prod.fst →
      ∃ last, IsLastPassword user last calls ∧ ∀ presented api,
        ((authorize settings user presented api).run (setPasswords settings calls store)).1 = true ↔
          presented = last) ∧
    ∀ other password presented api, other ≠ user →
      ((authorize settings user presented api).run (setPassword settings other password store)).1 =
        ((authorize settings user presented api).run store).1 := by
  constructor
  · intro calls h
    obtain ⟨last, hlast⟩ := exists_isLastPassword h
    refine ⟨last, hlast, fun presented api => ?_⟩
    rw [authorize_setPasswords settings store hlast, decide_eq_true_iff]
  · intro other password presented api h
    exact authorize_setPassword_other settings store h password presented api

theorem quoted_password_authorizes_alone :
    "ann" ∈ [("ann", ""), ("ann", "a\"\\"), ("bob", "")].map Prod.fst ∧ "bob" ≠ "ann" ∧
      (∃ last, IsLastPassword "ann" last [("ann", ""), ("ann", "a\"\\"), ("bob", "")] ∧ ∀ presented api,
        ((authorize { maxCallDepth := 0 } "ann" presented api).run
          (setPasswords { maxCallDepth := 0 } [("ann", ""), ("ann", "a\"\\"), ("bob", "")] {})).1 = true ↔
          presented = last) ∧
      ((authorize { maxCallDepth := 0 } "ann" "a" "get").run
        (setPassword { maxCallDepth := 0 } "bob" "a" ({} : MemoryStore))).1 =
          ((authorize { maxCallDepth := 0 } "ann" "a" "get").run ({} : MemoryStore)).1 := by
  have hmem : "ann" ∈ [("ann", ""), ("ann", "a\"\\"), ("bob", "")].map Prod.fst := by decide
  have hne : "bob" ≠ "ann" := by decide
  exact ⟨hmem, hne, (last_password_authorizes_alone _ _ "ann").1 _ hmem,
    (last_password_authorizes_alone _ _ "ann").2 "bob" "a" "a" "get" hne⟩

end DynamicConfig
