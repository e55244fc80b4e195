import MemberIndex.Records
import MemberIndex.Report.Document

/-! # Reports

A report is the records as a table of tables, in the order of their identities.
-/

namespace MemberIndex.Report

def texts (ss : List String) : Document := .list (ss.map .text)

def ofMembers (m : Members) : Document :=
  .table [("methods", texts m.methods), ("fields", texts m.fields),
    ("dependencies", texts m.dependencies.toList)]

def ofRecords (r : Records) : Document :=
  .table (r.toList.map fun entry => (entry.1, ofMembers entry.2))

def render (r : Records) : String := (ofRecords r).render

/-- What a report's file holds. -/
def fileText (r : Records) : String := render r ++ "\n"

end MemberIndex.Report
