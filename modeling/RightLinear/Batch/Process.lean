import RightLinear.Batch.Report
import RightLinear.Batch.Run
import RightLinear.Document.Reader

namespace RightLinear.Batch

/-- The output for a document.  The configuration is checked before the document is read; the
failure of a single test case is part of the output. -/
def process (c : Config) (document : String) : Traced String := do
  if let some fault := c.fault? then throw (.invalidConfig fault.message)
  let ts ← Traced.lift (Document.parse document)
  let results ← runAll c ts
  return report c results

end RightLinear.Batch
