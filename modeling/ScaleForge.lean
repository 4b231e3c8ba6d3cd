import ScaleForge.Access
import ScaleForge.Accounts
import ScaleForge.AuditAttribution
import ScaleForge.CatalogFreshness
import ScaleForge.Confinement
import ScaleForge.ConfirmedDelivery
import ScaleForge.ConsumersProgress
import ScaleForge.CorrelationTrace
import ScaleForge.DeferralFencing
import ScaleForge.DeliveryClaims
import ScaleForge.DeliveryRecovery
import ScaleForge.DeliveryStarvation
import ScaleForge.Deployment
import ScaleForge.Gateway
import ScaleForge.HandlerProgress
import ScaleForge.Idempotency
import ScaleForge.Integrity
import ScaleForge.LeaseExclusivity
import ScaleForge.Lib.Progress
import ScaleForge.OrderHistory
import ScaleForge.OrderListing
import ScaleForge.OrderStatus
import ScaleForge.OutboxProgress
import ScaleForge.OutboxSafety
import ScaleForge.Overpayment
import ScaleForge.PipelineProgress
import ScaleForge.PriceBounds
import ScaleForge.ProcessableEvents
import ScaleForge.Provenance
import ScaleForge.PublicationBounds
import ScaleForge.RabbitConsistency
import ScaleForge.RabbitPublisher
import ScaleForge.RabbitRecovery
import ScaleForge.RedisCache
import ScaleForge.RefreshTokens
import ScaleForge.RetryTermination
import ScaleForge.RoleAuthority
import ScaleForge.ScalingLab.Accounting
import ScaleForge.ScalingLab.Gate
import ScaleForge.ScalingLab.InlineValues
import ScaleForge.Serializability
