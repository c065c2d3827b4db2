import ResourceQuery.Proofs.ReadMoments
import ResourceQuery.Proofs.TreeContents

/-!
# Values of queries that are read

A value of a query that has been read is that of a token, or the text of words. So a moment among
them is shown as a moment that is read: in the local offset, or in UTC if it is one of UTC.
-/

namespace ResourceQuery

namespace Token

/-- The value of the token, if it has one, is shown as a value that is read. -/
def IsShown (localOffset : UtcOffset) (token : Token) : Prop :=
  ∀ value ∈ token.value, value.IsShown localOffset

end Token

namespace Query

/-- The operands of a union are those of the two clauses. -/
theorem holding_operands : Holding operands where
  noop := rfl
  group _ _ := rfl
  absorb {a b value} h := by
    unfold Query.absorb at h
    split at h
    · cases h
    · cases h
    · exact mem_of_mem_appendNew h
    · exact .inl h

end Query

namespace Grammar

open Query

variable {localOffset : UtcOffset} {tokens : List Token} {query : Query}

theorem Operand.isShown {value : Value} (h : Operand tokens value)
    (htokens : ∀ token ∈ tokens, token.IsShown localOffset) : value.IsShown localOffset := by
  cases h with
  | literal _ hvalue => exact htokens _ (List.mem_singleton.mpr rfl) value hvalue
  | bare | signed => exact Value.isShown_of_moment?_eq_none rfl

theorem Arguments.allHeld_operands {keyword : Keyword} (h : Arguments keyword tokens query)
    (htokens : ∀ token ∈ tokens, token.IsShown localOffset) :
    query.AllHeld operands (Value.IsShown localOffset) := by
  have hback {first second : List Token} {comma : Token} (h : tokens = first ++ comma :: second) :
      ∀ token ∈ second, token.IsShown localOffset :=
    fun token hmem ↦ htokens token (by simp [h, hmem])
  cases h with
  | compare _ _ hoperand | pattern _ _ hoperand =>
    refine allHeld_of_nodes_eq_nil rfl (List.forall_mem_singleton.mpr ?_)
    exact hoperand.isShown (hback rfl)
  | membership _ _ hentries =>
    exact allHeld_of_nodes_eq_nil rfl (hentries.holds (hback rfl) fun _ _ ↦ Operand.isShown)
  | @aggregate _ groups functions hitems =>
    refine allHeld_iff.mpr ⟨List.forall_mem_nil _, fun function hmem ↦ ?_⟩
    have hchild : Child.node function ∈ groups.map .property ++ functions.map .node :=
      List.mem_append_right _ (List.mem_map_of_mem hmem)
    -- what may stand among the functions has no operands and nothing below it
    obtain ⟨property, hproperty⟩ | ⟨other, hother, hfunction⟩ :=
      hitems.forall (fun _ _ ↦ AggregateItem.shape) _ hchild
    · cases hproperty
    · cases hother
      cases function with
      | summary | count => exact allHeld_of_nodes_eq_nil rfl (List.forall_mem_nil _)
      | _ => cases hfunction
  | limit | select | sort | distinct | first | one | count | values | summary =>
    exact allHeld_of_nodes_eq_nil rfl (List.forall_mem_nil _)

theorem Clauses.allHeld_operands (h : Clauses tokens query)
    (htokens : ∀ token ∈ tokens, token.IsShown localOffset) :
    query.AllHeld operands (Value.IsShown localOffset) := by
  refine h.holds (fun joiner queries _ hqueries ↦ holding_operands.allHeld_group_iff.mpr hqueries)
    (fun first second op property value htokens _ hoperand ↦ ?_)
    (fun keyword tokens query htokens h ↦ h.allHeld_operands htokens) htokens
  have hshown := hoperand.isShown (List.forall_mem_append.mp htokens).2
  exact allHeld_of_nodes_eq_nil rfl (List.forall_mem_singleton.mpr hshown)

end Grammar

/-- Every value of a query that has been read is shown as a value that is read. -/
theorem Query.allHeld_operands_of_read {options : ReadOptions} {text : String} {query : Query}
    (h : read options text = .ok query) :
    query.AllHeld operands (Value.IsShown options.localOffset) := by
  refine holding_operands.allHeld_of_read (fun _ _ ↦ Grammar.Clauses.allHeld_operands)
    (fun _ _ ↦ Lexer.forall_of_scan fun lexer token rest hoffset hnext ↦ ?_) h
  rw [← hoffset]
  exact Lexer.isShown_of_next hnext

end ResourceQuery
