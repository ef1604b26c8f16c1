import NFSKit.Foundations.Machine
import NFSKit.Foundations.Checked
import NFSKit.Foundations.Chunks
import NFSKit.Foundations.Texts
import NFSKit.Foundations.Paths
import NFSKit.Foundations.Slices
import NFSKit.Pipeline
import NFSKit.Contents
import NFSKit.OperationBatch
import NFSKit.Attributes
import NFSKit.RemoveItem
import NFSKit.EventLoop.State
import NFSKit.EventLoop.Actions
import NFSKit.EventLoop.Conditions
import NFSKit.EventLoop.Drain
import NFSKit.EventLoop.Proofs.ActionsProofs
import NFSKit.EventLoop.Proofs.EffectsProofs
import NFSKit.EventLoop.Proofs.EndingProofs
import NFSKit.EventLoop.Proofs.HeapBufferProofs
import NFSKit.EventLoop.Proofs.InFlightProofs
import NFSKit.EventLoop.Proofs.QueueProofs
import NFSKit.EventLoop.Proofs.ReadBufferProofs
import NFSKit.EventLoop.Proofs.ConfinementProofs
import NFSKit.EventLoop.Proofs.ExportsProofs
import NFSKit.EventLoop.Proofs.LeakProofs
import NFSKit.EventLoop.Proofs.BackpressureProofs
import NFSKit.EventLoop.Proofs.FailureProofs
import NFSKit.EventLoop.Proofs.RetainProofs
import NFSKit.EventLoop.Proofs.DrainProofs
import NFSKit.EventLoop.Proofs.OrderProofs
import NFSKit.EventLoop.Proofs.StrandingProofs
import NFSKit.EventLoop.Proofs.DepthProofs
import NFSKit.EventLoop.Proofs.WatchProofs
import NFSKit.EventLoop.Proofs.SuspensionProofs
import NFSKit.EventLoop.Proofs.ConvergenceProofs
import NFSKit.Proofs.FileDataProofs
import NFSKit.Proofs.AttributesProofs
import NFSKit.Proofs.RemoveItemProofs
import NFSKit.Proofs.RemoteTreeProofs
import NFSKit.Proofs.RemovableProofs
import NFSKit.Proofs.ListingProofs
import NFSKit.Proofs.WriteProofs
import NFSKit.Proofs.ClientProofs
import NFSKit.Proofs.DisconnectProofs
import NFSKit.Proofs.PipelineProofs
import NFSKit.Proofs.OperationBatchProofs
import NFSKit.EventLoop.Lane
import NFSKit.EventLoop.Proofs.IndependenceProofs
import NFSKit.EventLoop.CallLog
import NFSKit.EventLoop.Deadlines
import NFSKit.EventLoop.Effort
import NFSKit.EventLoop.Proofs.CallLogProofs
import NFSKit.EventLoop.Proofs.DeadlineProofs
import NFSKit.EventLoop.Proofs.ProgressProofs
import NFSKit.EventLoop.Proofs.ServiceProofs
import NFSKit.Foundations.Monitor
import NFSKit.Foundations.Slot
import NFSKit.EventLoop.Holdings
import NFSKit.EventLoop.Proofs.HoldingsProofs
import NFSKit.EventLoop.Proofs.LogProofs
import NFSKit.Proofs.BrowseProofs
import NFSKit.Proofs.RemoveOrderProofs
import NFSKit.Proofs.TransferProofs
import NFSKit.EventLoop.Proofs.QueryProofs
import NFSKit.EventLoop.Proofs.ReplyProofs
import NFSKit.Foundations.Contraction
import NFSKit.Proofs.FeedbackProofs
