import Mixsheet.Proofs.Node.Body

/-! # Texts of one mixin call

A head that is a mixin call, with its name in front and a semicolon behind, is read as the stylesheet of
that call alone. -/

namespace Mixsheet

open Token Text

/-- A text is read as one mixin call with a name and arguments, and nothing else. -/
def Stylesheet.ReadsAsCall (s name : String) (arguments : List Argument) : Prop :=
  ∃ c, Stylesheet.parse s = .ok ⟨[.call c]⟩ ∧ c.name = name ∧ c.arguments = arguments

namespace Node

open Segment

/-- A call is read of its tokens, with the name in front. -/
structure CallTokens (name : Token) (rest : List Token) : Prop where
  kind : name.kind = .word
  head : ∃ out, Head (name :: rest) out
  colon : hasColon (name :: rest) = false
  brackets : hasBrackets (name :: rest) = true

theorem callTokens_brackets {name group : Token} (hname : name.kind = .word) (hgroup : group.kind = .brackets) :
    CallTokens name [group] := by
  have hhead : Head [name, group] [name, group] := by
    refine .token ?_ ?_ (.token ?_ ?_ .nil)
    · rw [hname]; rfl
    · simp [isStop, hname]
    · rw [hgroup]; rfl
    · simp [isStop, hgroup]
  refine ⟨hname, ⟨_, hhead⟩, hasColon_eq_false hhead ?_, ?_⟩
  · simp [hname, hgroup]
  · simp [hasBrackets, hgroup]

/-- The tokens of a call are a statement before a semicolon. -/
theorem CallTokens.leads {name : Token} {rest : List Token} (h : CallTokens name rest)
    (hreads : ∀ k, Reads false (name :: rest ++ [semicolonToken]) k) (p : Progress) :
    Leads (chars (name :: rest) ++ [';']) p
      (p.add (.call ⟨name.text, Argument.ofTokens rest, p.spaces, join rest, .none⟩)) := by
  obtain ⟨out, hhead⟩ := h.head
  have hstart : StartsHead (name :: rest) := ⟨name, rfl, by rw [h.kind]; rfl⟩
  refine ⟨name :: rest ++ [semicolonToken], .statement .none ((name :: rest).map Token.bare) (.semicolon .none),
    ?_, ⟨(hstart.append _).kind_ne, hreads, ?_, fun us => ?_⟩, ?_⟩
  · simp
  · rw [endsUrl_append]
    rfl
  · obtain ⟨start, hcut⟩ := ofTokens_statement hstart hhead.whole.1 semicolonToken rfl us
    rw [List.append_assoc]
    exact congrArg (List.map Segment.bare) hcut
  · have hcall : callOf p.spaces .none (name :: rest) .none =
        .ok (.call ⟨name.text, Argument.ofTokens rest, p.spaces, join rest, ⟨name.position, .none⟩⟩) := by
      rw [callOf, List.dropWhile_cons_of_neg (by simp [h.kind]), List.takeWhile_cons_of_neg (by simp [h.kind])]
      simp [join]
    rw [Progress.step, Progress.statement, hasColon_map_bare, h.colon, if_neg Bool.false_ne_true,
      hasBrackets_map_bare, h.brackets, if_pos rfl, callOf_map_bare p.spaces .none _ .none, hcall]
    rfl

theorem yields_blank {p : Progress} (hp : p.blocks = []) {w : List Char} (hw : Blank w) :
    Yields p w p.nodes.reverse := by
  have hfinish : (p.spaced w).finish = .ok p.nodes.reverse := by
    rw [Progress.finish, Progress.spaced, hp]
  have := (yields_nil hfinish).spaced hw (by simp)
  rwa [List.append_nil] at this

/-- A call is read of its text, whatever white space stands around it. -/
theorem CallTokens.readsAsCall {name : Token} {rest : List Token} (h : CallTokens name rest)
    (hreads : ∀ k, Reads false (name :: rest ++ [semicolonToken]) k) {before after : List Char}
    (hbefore : Blank before) (hafter : Blank after) :
    Stylesheet.ReadsAsCall (.ofList (before ++ (chars (name :: rest) ++ ';' :: after))) name.text
      (Argument.ofTokens rest) := by
  have hleads := h.leads hreads (Progress.initial.spaced before)
  have hend := yields_blank (p := (Progress.initial.spaced before).add
    (.call ⟨name.text, Argument.ofTokens rest, (Progress.initial.spaced before).spaces, join rest, .none⟩)) rfl hafter
  have hyields := hleads.yields hbefore hend
  have htext : before ++ (chars (name :: rest) ++ [';'] ++ after) =
      (String.ofList (before ++ (chars (name :: rest) ++ ';' :: after))).toList := by simp
  rw [htext] at hyields
  obtain ⟨⟨nodes⟩, hparse, hbare⟩ := parse_of_yields hyields
  have hnodes : nodes.map Node.bare = _ := congrArg Stylesheet.nodes hbare
  obtain ⟨node, tail, rfl, hnode, htail⟩ := List.map_eq_cons_iff.mp hnodes
  obtain rfl := List.map_eq_nil_iff.mp htail
  cases node with
  | call c =>
    rw [Node.bare] at hnode
    have hc := Node.call.inj hnode
    exact ⟨c, hparse, congrArg MixinCall.name hc, congrArg MixinCall.arguments hc⟩
  | _ => cases hnode

end Node
end Mixsheet
