import DynamicConfig.Answer
/-!
# Password policies

Who may call what is part of the configuration: the entry of a user is an expression that is evaluated
with the user's name, the password that was given and the name of what is to be called. Nothing but
the value `true` allows the call.
-/

namespace DynamicConfig

/-- The name of what a request path calls: the first part of the path that is not empty. -/
def apiName (path : String) : String :=
  let path := path.toList.takeWhile fun c => c != '?' && c != '#'
  String.ofList ((path.dropWhile (· == '/')).takeWhile (· != '/'))

/-- The policy that allows everything with one password. -/
def passwordPolicy (password : String) : String :=
  "secret == " ++ Text.Quoted.encode password

/-- Whether a policy allows a call. -/
def allowedBy (context : Context) (policy user password api : String) : Bool :=
  match answerSource context [("key", .string user), ("secret", .string password), ("api", .string api)] policy with
  | .ok (.bool true) => true
  | _ => false

section

variable {σ : Type} [Store σ] (settings : Settings)

/-- Whether a user may call something with a password. A user without a policy may call nothing. -/
def authorize (user password api : String) : StateM σ Bool := do
  match (← Store.config).get? (settings.authPrefix ++ user) with
  | none => return false
  | some policy => return allowedBy settings.context policy user password api

/-- Gives a user a password. -/
def setPassword (user password : String) (store : σ) : σ :=
  Store.set (settings.authPrefix ++ user) (passwordPolicy password) store

end

end DynamicConfig
